import Mathlib.Algebra.Order.Field.Rat
import Mathlib.Data.List.Sort
import StormStorage.Model

/-!
# Placement

Choosing nodes for a volume's legs: one per failure domain at a rung, the best
of each by a score of its free room and load (`placement.rs`). The score is a
floating-point number there and a rational here.

* `plan_picks`: the picks are candidates of different domains;
* `planPreferring_picks`: the same with a preference.
-/

namespace StormStorage

/-! ## Domains -/

def NodeConfig.effectiveLabels (c : NodeConfig) : KeyMap String :=
  (c.labels.insertIfNew "node" c.name).insertIfNew "cluster" c.name

/-- Labels as the engine reports them, under those configured. -/
def Node.labels (n : Node) : KeyMap String :=
  KeyMap.gather some id n.config.effectiveLabels n.status.engineTopology

/-- The labels from the top rung down to `rung`, those there are. -/
def domainParts (labels : KeyMap String) (rung : String) : List String → List String
  | [] => []
  | r :: rs => labels[r]?.toList ++ if r = rung then [] else domainParts labels rung rs

/-- The failure domain of these labels at `rung`. -/
def domainAt (labels : KeyMap String) (rungs : List String) (rung : String) : String :=
  match domainParts labels rung rungs with
  | [] => labels["node"]?.getD "?"
  | parts => "/".intercalate parts

structure Candidate where
  name : String
  labels : KeyMap String
  freeBytes : Nat
  totalBytes : Nat
  /-- The mean number of I/Os in flight; none is not known yet. -/
  ioBusy : Option ℚ := none

def Candidate.freeRatio (c : Candidate) : ℚ :=
  if c.totalBytes = 0 then 0 else c.freeBytes / c.totalBytes

def Node.candidate (n : Node) : Candidate where
  name := n.config.name
  labels := n.labels
  freeBytes := n.status.freeBytes
  totalBytes := n.status.totalBytes
  ioBusy := n.status.io.map (·.busy)

/-! ## Pools -/

/-- Which nodes a pool draws from: every condition that is there holds. -/
structure Selector where
  tier : Option String := none
  labels : KeyMap String := ∅
  nodes : List String := []

def Selector.matches (s : Selector) (node : NodeConfig) : Bool :=
  (s.tier.all fun t => node.tier = some t) ∧
    (s.labels.toList.all fun (k, v) => node.effectiveLabels[k]? = some v) ∧ (s.nodes = [] ∨ node.name ∈ s.nodes)

structure PoolConfig where
  name : String
  selector : Selector := {}
  replicas : Nat := 2
  rung : String := "node"
  /-- A node used above this fraction sheds legs… -/
  highWatermark : Option ℚ := none
  /-- …onto nodes used below this one. -/
  lowWatermark : Option ℚ := none
  maxMoves : Nat := 1

/-- What the operations read of the configuration. -/
structure Config where
  /-- The host NQN of a head. -/
  hostNqnFor : String → String
  cooldown : SystemTime
  rungs : List String
  /-- How much a node's load counts beside its free room. -/
  ioWeight : ℚ := 3 / 10
  pools : List PoolConfig := []
  maxDualAttachSecs : Nat := 3600
  /-- Whether a lost head is replaced without being asked, and after how long. -/
  rehead : Bool := false
  reheadAfterSecs : Nat := 120
  pollIntervalSecs : Nat := 15

def Config.pool (cfg : Config) (name : String) : Option PoolConfig := cfg.pools.find? (·.name = name)

/-! ## Planning -/

/-- How good a home the candidate is among these: its free ratio, and how cold
it is beside the busiest. One without a reading counts as the mean. -/
def rating (cands : List Candidate) (ioWeight : ℚ) (c : Candidate) : ℚ :=
  let w := min (max ioWeight 0) 1
  let known := (cands.filterMap (·.ioBusy)).map (max · 0)
  let most := known.foldl max 0
  let mean := if known.isEmpty then 0 else known.sum / known.length
  let busy := (c.ioBusy.map (max · 0)).getD mean
  let cold := if 0 < most then 1 - busy / most else 1
  (1 - w) * c.freeRatio + w * cold

def scores (cands : List Candidate) (ioWeight : ℚ) : KeyMap ℚ :=
  cands.foldl (fun m c => m.insert c.name (rating cands ioWeight c)) ∅

section

variable (ioWeight : ℚ) (rungs : List String) (rung : String)

def better (s : Candidate → ℚ) (c cur : Candidate) : Bool :=
  s cur < s c ∨ s c = s cur ∧ c.name < cur.name

/-- The best node of each domain. -/
def bestOf (s : Candidate → ℚ) : List Candidate → KeyMap Candidate → KeyMap Candidate
  | [], best => best
  | c :: cs, best =>
    let d := domainAt c.labels rungs rung
    bestOf s cs (match best[d]? with
      | none => best.insert d c
      | some cur => if better s c cur then best.insert d c else best)

def plan (candidates : List Candidate) (replicas sizeBytes : Nat) : Except String (List String) :=
  let fitting := candidates.filter fun c => sizeBytes ≤ c.freeBytes
  if fitting.isEmpty then
    .error s!"no node with {sizeBytes} bytes free ({candidates.length} candidates)"
  else
    let score := scores fitting ioWeight
    let s := fun c : Candidate => score[c.name]?.getD 0
    let domains := bestOf rungs rung s fitting ∅
    if domains.toList.length < replicas then
      .error (s!"need {replicas} distinct domains at rung {repr rung}, found {domains.toList.length}: " ++
        "[" ++ ", ".intercalate domains.keys ++ "]")
    else
      .ok ((((domains.toList.map Prod.snd).insertionSort fun a b => s b < s a ∨ s a = s b ∧ a.name ≤ b.name).take
        replicas).map (·.name))

/-- The plan with `prefer` leading, when it fits and the rest can be placed
beside it; whether it leads. -/
def planPreferring (candidates : List Candidate) (replicas sizeBytes : Nat) (prefer : Option String) :
    Except String (List String × Bool) :=
  let plain := (plan ioWeight rungs rung candidates replicas sizeBytes).map fun p => (p, false)
  match prefer.bind fun p => candidates.find? (·.name = p) with
  | none => plain
  | some p =>
    if sizeBytes ≤ p.freeBytes ∧ 1 ≤ replicas then
      let rest := candidates.filter fun c => domainAt c.labels rungs rung ≠ domainAt p.labels rungs rung
      let others := if replicas = 1 then .ok [] else plan ioWeight rungs rung rest (replicas - 1) sizeBytes
      match others with
      | .ok others => .ok (p.name :: others, true)
      | .error _ => plain
    else plain

/-! ## What a plan picks -/

variable {ioWeight rungs rung}

/-- Every entry is a candidate, under its own domain. -/
def Best (rungs : List String) (rung : String) (cs : List Candidate) (best : KeyMap Candidate) : Prop :=
  ∀ (d : String) c, best[d]? = some c → c ∈ cs ∧ d = domainAt c.labels rungs rung

theorem Best.insert {cs : List Candidate} {best : KeyMap Candidate} (h : Best rungs rung cs best) {c : Candidate}
    (hc : c ∈ cs) : Best rungs rung cs (best.insert (domainAt c.labels rungs rung) c) := by
  intro d c' hd
  rw [KeyMap.get_insert] at hd
  split at hd
  · rename_i he
    obtain rfl := Option.some.inj hd
    exact ⟨hc, he.symm⟩
  · exact h d c' hd

theorem best_bestOf {s : Candidate → ℚ} {cs : List Candidate} (xs : List Candidate) (hx : ∀ c ∈ xs, c ∈ cs)
    (best : KeyMap Candidate) (h : Best rungs rung cs best) :
    Best rungs rung cs (bestOf rungs rung s xs best) := by
  induction xs generalizing best with
  | nil => exact h
  | cons c xs ih =>
    refine ih (fun c' h' => hx c' (List.mem_cons_of_mem _ h')) _ ?_
    have hc := hx c (List.mem_cons_self ..)
    split
    · exact h.insert hc
    · split
      · exact h.insert hc
      · exact h

/-- The picks are the names of candidates of different domains. -/
theorem plan_picks {cs : List Candidate} {replicas sizeBytes : Nat} {picks : List String}
    (h : plan ioWeight rungs rung cs replicas sizeBytes = .ok picks) :
    ∃ ps : List Candidate, picks = ps.map (·.name) ∧ (∀ c ∈ ps, c ∈ cs ∧ sizeBytes ≤ c.freeBytes) ∧
      (ps.map fun c => domainAt c.labels rungs rung).Nodup ∧ ps.length = replicas := by
  unfold plan at h
  dsimp only at h
  split at h <;> [cases h; skip]
  split at h <;> [cases h; skip]
  rename_i hlen
  set fitting := cs.filter fun c => sizeBytes ≤ c.freeBytes with hf
  set s := fun c : Candidate => (scores fitting ioWeight)[c.name]?.getD 0 with hs
  set best := bestOf rungs rung s fitting ∅ with hb
  obtain rfl := Except.ok.inj h
  have hbest : Best rungs rung fitting best :=
    best_bestOf fitting (fun _ h => h) ∅ fun d c h => by simp at h
  set sorted := (best.toList.map Prod.snd).insertionSort
    fun a b => s b < s a ∨ s a = s b ∧ a.name ≤ b.name with hsort
  have hperm : sorted.Perm (best.toList.map Prod.snd) := List.perm_insertionSort _ _
  refine ⟨sorted.take replicas, rfl, fun c hc => ?_, ?_, ?_⟩
  · obtain ⟨⟨d, c'⟩, hm, rfl⟩ := List.mem_map.mp (hperm.mem_iff.mp (List.mem_of_mem_take hc))
    have hm := (hbest d c' (KeyMap.mem_toList.mp hm)).1
    simpa [hf] using hm
  · refine List.Nodup.sublist ((List.take_sublist _ _).map _) ?_
    rw [(hperm.map _).nodup_iff, List.map_map]
    refine (List.map_congr_left fun p hp => ?_) ▸ KeyMap.nodup_toList best
    exact (hbest p.1 p.2 (KeyMap.mem_toList.mp hp)).2
  · rw [List.length_take, hperm.length_eq, List.length_map]
    omega

theorem planPreferring_picks {cs : List Candidate} {replicas sizeBytes : Nat} {prefer : Option String}
    {picks : List String} {led : Bool}
    (h : planPreferring ioWeight rungs rung cs replicas sizeBytes prefer = .ok (picks, led)) :
    ∃ ps : List Candidate, picks = ps.map (·.name) ∧ (∀ c ∈ ps, c ∈ cs ∧ sizeBytes ≤ c.freeBytes) ∧
      (ps.map fun c => domainAt c.labels rungs rung).Nodup ∧ ps.length = replicas := by
  have hplain : (plan ioWeight rungs rung cs replicas sizeBytes).map (fun p => (p, false)) = .ok (picks, led) →
      ∃ ps : List Candidate, picks = ps.map (·.name) ∧ (∀ c ∈ ps, c ∈ cs ∧ sizeBytes ≤ c.freeBytes) ∧
        (ps.map fun c => domainAt c.labels rungs rung).Nodup ∧ ps.length = replicas := by
    intro h
    cases hp : plan ioWeight rungs rung cs replicas sizeBytes with
    | error e => rw [hp] at h; cases h
    | ok picks' =>
      rw [hp] at h
      cases h
      obtain ⟨ps, rfl, hin, hd, hn⟩ := plan_picks hp
      exact ⟨ps, rfl, hin, hd, hn⟩
  unfold planPreferring at h
  dsimp only at h
  split at h <;> [exact hplain h; skip]
  rename_i p hfind
  split at h <;> [skip; exact hplain h]
  rename_i hfit
  obtain ⟨n, hn, hfind⟩ := Option.bind_eq_some_iff.mp hfind
  have hp : p ∈ cs := List.mem_of_find?_eq_some hfind
  split at h <;> [skip; exact hplain h]
  rename_i others hothers
  cases h
  by_cases h1 : replicas = 1
  · rw [if_pos h1] at hothers
    cases hothers
    exact ⟨[p], rfl, by simpa using ⟨hp, hfit.1⟩, List.nodup_singleton _, h1.symm⟩
  · rw [if_neg h1] at hothers
    obtain ⟨ps, rfl, hin, hd, hlen⟩ := plan_picks hothers
    refine ⟨p :: ps, rfl, ?_, ?_, by rw [List.length_cons]; omega⟩
    · rintro c (_ | ⟨_, hc⟩)
      · exact ⟨hp, hfit.1⟩
      · exact ⟨List.mem_of_mem_filter (hin c hc).1, (hin c hc).2⟩
    · refine List.nodup_cons.mpr ⟨fun hm => ?_, hd⟩
      obtain ⟨c, hc, he⟩ := List.mem_map.mp hm
      exact of_decide_eq_true (List.mem_filter.mp (hin c hc).1).2 he

end

end StormStorage
