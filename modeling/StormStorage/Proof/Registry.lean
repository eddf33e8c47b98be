import StormStorage.Registry

/-!
# One node for each engine

Each change of the registry writes some configs over the nodes that stay:
`Laid`. Two nodes come to share an engine's URL just where what is written
meets what kept, or itself (`distinctUrls_iff`), since no source looks at
the URLs of the others but adoption. `not_distinctUrls` is two heartbeats
from one address.

* `laid_foldl`: configs laid one after another;
* `laid`: what each change writes, and which nodes stay;
* `distinct_laid`: when the URLs are distinct after it.
-/

namespace StormStorage

namespace Registry

/-! ## Configs over nodes -/

/-- Each node is listed under its name. -/
def Keyed (nodes : KeyMap Node) : Prop := ∀ (k : String) (n : Node), nodes[k]? = some n → n.config.name = k

def urlOf (nodes : KeyMap Node) (k : String) : Option String := nodes[k]?.map (·.config.engineUrl)

/-- The URL that the configs leave under a name: the last one's. -/
def written : List NodeConfig → String → Option String
  | [], _ => none
  | nc :: ncs, k => (written ncs k).or (if nc.name = k then some nc.engineUrl else none)

/-- The configs `ws` are laid over the nodes that stay. -/
structure Laid (ws : List NodeConfig) (kept : String → Node → Bool) (nodes nodes' : KeyMap Node) : Prop where
  old : ∀ k, written ws k = none → urlOf nodes' k = (nodes[k]?.filter (kept k)).map (·.config.engineUrl)
  new : ∀ k u, written ws k = some u → urlOf nodes' k = some u
  keyed : Keyed nodes'

/-- No two nodes have the same URL, as `key` reads it. -/
def DistinctUrls {κ : Type} (key : String → κ) (nodes : KeyMap Node) : Prop :=
  ∀ a b u v, urlOf nodes a = some u → urlOf nodes b = some v → key u = key v → a = b

/-- The configs have distinct URLs under distinct names, and none that a node
has which kept and is not written. -/
structure Clear {κ : Type} (key : String → κ) (ws : List NodeConfig) (kept : String → Node → Bool)
    (nodes : KeyMap Node) : Prop where
  apart : ∀ a b u v, written ws a = some u → written ws b = some v → key u = key v → a = b
  free : ∀ a b u n, written ws a = some u → written ws b = none → nodes[b]? = some n → kept b n = true →
    key n.config.engineUrl ≠ key u

variable {κ : Type} {key : String → κ} {ws : List NodeConfig} {kept : String → Node → Bool} {nodes nodes' : KeyMap Node}

theorem urlOf_insert (k : String) (n : Node) (a : String) :
    urlOf (nodes.insert k n) a = if k = a then some n.config.engineUrl else urlOf nodes a := by
  rw [urlOf, KeyMap.get_insert]
  split <;> rfl

theorem Keyed.insert (h : Keyed nodes) (n : Node) : Keyed (nodes.insert n.config.name n) := by
  intro k n' hn
  rw [KeyMap.get_insert] at hn
  split at hn
  · rename_i hk
    exact Option.some.inj hn ▸ hk
  · exact h k n' hn

theorem mem_of_written {k u : String} (h : written ws k = some u) : ∃ nc ∈ ws, nc.name = k ∧ nc.engineUrl = u := by
  induction ws with
  | nil => cases h
  | cons nc ws ih =>
    rcases Option.or_eq_some_iff.mp h with h | ⟨-, h⟩
    · obtain ⟨x, hx, hk⟩ := ih h
      exact ⟨x, List.mem_cons_of_mem _ hx, hk⟩
    · split at h
      · rename_i hk
        exact ⟨nc, List.mem_cons_self .., hk, Option.some.inj h⟩
      · cases h

section

/-- A step keeps `good`, and writes the configs that are to be written. -/
def Writer (good : KeyMap Node → Prop) (writes : NodeConfig → Bool) (f : KeyMap Node → NodeConfig → KeyMap Node) : Prop :=
  ∀ nodes nc, good nodes → good (f nodes nc) ∧ (writes nc = false → f nodes nc = nodes) ∧
    (writes nc = true → ∃ n : Node, n.config = nc ∧ f nodes nc = nodes.insert nc.name n)

variable {good : KeyMap Node → Prop} {writes : NodeConfig → Bool} {f : KeyMap Node → NodeConfig → KeyMap Node}

/-- Configs laid one after another. -/
theorem laid_foldl (hf : Writer good writes f) (ncs : List NodeConfig) (h : good nodes) :
    good (ncs.foldl f nodes) ∧ (∀ k, written (ncs.filter writes) k = none → (ncs.foldl f nodes)[k]? = nodes[k]?) ∧
      ∀ k u, written (ncs.filter writes) k = some u → urlOf (ncs.foldl f nodes) k = some u := by
  induction ncs generalizing nodes with
  | nil => exact ⟨h, fun _ _ => rfl, fun _ _ h => nomatch h⟩
  | cons nc ncs ih =>
    obtain ⟨hgood, hkeep, hput⟩ := hf nodes nc h
    obtain ⟨ihgood, ihold, ihnew⟩ := ih hgood
    rw [List.foldl_cons]
    cases hw : writes nc with
    | false =>
      rw [List.filter_cons_of_neg (by simp [hw])]
      exact ⟨ihgood, fun k hk => (ihold k hk).trans (by rw [hkeep hw]), ihnew⟩
    | true =>
      obtain ⟨n, hn, hins⟩ := hput hw
      rw [List.filter_cons_of_pos hw]
      refine ⟨ihgood, fun k hk => ?_, fun k u hk => ?_⟩
      · obtain ⟨hk, hne⟩ := Option.or_eq_none_iff.mp hk
        rw [ihold k hk, hins, KeyMap.get_insert_ne _ _ fun he => by simp [he] at hne]
      · rcases Option.or_eq_some_iff.mp hk with hk | ⟨hk, he⟩
        · exact ihnew k u hk
        · rw [urlOf, ihold k hk, hins, ← urlOf, urlOf_insert, hn]
          split at he
          · rename_i hnk
            rw [if_pos hnk, he]
          · cases he

/-- The same, over what was kept of the nodes. -/
theorem Laid.of_foldl {ncs : List NodeConfig} (hkeyed : ∀ nodes, good nodes → Keyed nodes) (hf : Writer good writes f)
    (h : good nodes)
    (hstays : ∀ (k : String), nodes[k]? = nodes'[k]?.filter (kept k)) :
    Laid (ncs.filter writes) kept nodes' (ncs.foldl f nodes) := by
  obtain ⟨hgood, hold, hnew⟩ := laid_foldl hf ncs h
  exact ⟨fun k hk => by rw [urlOf, hold k hk, hstays], hnew, hkeyed _ hgood⟩

end

theorem Laid.refl (h : Keyed nodes) : Laid [] (fun _ _ => true) nodes nodes :=
  ⟨fun k _ => by cases hn : nodes[k]? <;> simp [urlOf, hn, Option.filter], nofun, h⟩

/-- When no two nodes share a URL after configs were laid over them. -/
theorem distinct_laid (hl : Laid ws kept nodes nodes') (hd : DistinctUrls key nodes) :
    DistinctUrls key nodes' ↔ Clear key ws kept nodes := by
  have hfind : ∀ {k u}, urlOf nodes' k = some u → written ws k = some u ∨
      written ws k = none ∧ ∃ n, nodes[k]? = some n ∧ kept k n = true ∧ n.config.engineUrl = u := by
    intro k u hu
    cases hw : written ws k with
    | some v => exact .inl (by rw [hl.new k v hw] at hu; exact hu)
    | none =>
      rw [hl.old k hw, Option.map_eq_some_iff] at hu
      obtain ⟨n, hn, rfl⟩ := hu
      obtain ⟨hn, hs⟩ := Option.filter_eq_some_iff.mp hn
      exact .inr ⟨rfl, n, hn, hs, rfl⟩
  have hurl : ∀ {k n}, nodes[k]? = some n → urlOf nodes k = some n.config.engineUrl := fun hn => by rw [urlOf, hn]; rfl
  refine ⟨fun h => ⟨fun a b u v ha hb => h a b u v (hl.new a u ha) (hl.new b v hb), fun a b u n ha hb hn hs he => ?_⟩,
    fun h a b u v ha hb he => ?_⟩
  · have hb' : urlOf nodes' b = some n.config.engineUrl := by
      rw [hl.old b hb, hn, Option.filter_some, if_pos hs]
      rfl
    obtain rfl := h a b u _ (hl.new a u ha) hb' he.symm
    rw [ha] at hb
    cases hb
  · rcases hfind ha with ha | ⟨ha, n, hn, hs, rfl⟩ <;> rcases hfind hb with hb | ⟨hb, n', hn', hs', rfl⟩
    · exact h.apart a b u v ha hb he
    · exact absurd he.symm (h.free a b u n' ha ‹_› hn' hs')
    · exact absurd he (h.free b a v n hb ‹_› hn hs)
    · exact hd a b _ _ (hurl hn) (hurl hn') he

/-! ## What each change writes -/

/-- No other source than a heartbeat has the name. -/
def unclaimed (nodes : KeyMap Node) (nc : NodeConfig) : Bool := nodes[nc.name]?.all registered

theorem adopt_eq : adopt = adoptRegistered := by
  funext nodes nc
  unfold adopt adoptRegistered registered
  cases nodes[nc.name]? with
  | none => rfl
  | some n => simp

theorem Keyed.put (h : Keyed nodes) {nc : NodeConfig} {n : Node} (hn : n.config = nc) :
    Keyed (nodes.insert nc.name n) := by
  subst hn
  exact h.insert n

theorem applyConfigNode_writer : Writer Keyed (fun _ => true) applyConfigNode := by
  intro nodes nc h
  unfold applyConfigNode
  split
  · exact ⟨h.put rfl, nofun, fun _ => ⟨_, rfl, rfl⟩⟩
  · exact ⟨h.put rfl, nofun, fun _ => ⟨_, rfl, rfl⟩⟩

theorem adoptRegistered_writer (nodes₀ : KeyMap Node) :
    Writer (fun nodes => Keyed nodes ∧ unclaimed nodes = unclaimed nodes₀) (unclaimed nodes₀) adoptRegistered := by
  intro nodes nc h
  have hput : ∀ n : Node, n.config = nc → registered n = true → unclaimed nodes nc = true →
      Keyed (nodes.insert nc.name n) ∧ unclaimed (nodes.insert nc.name n) = unclaimed nodes₀ := by
    intro n hn hr hu
    refine ⟨h.1.put hn, ?_⟩
    rw [← h.2]
    funext x
    rw [unclaimed, KeyMap.get_insert]
    split
    · rename_i hx
      rw [Option.all_some, hr, unclaimed, ← hx]
      exact hu.symm
    · rfl
  have hu := congrFun h.2 nc
  unfold adoptRegistered
  rw [← hu]
  cases hn : nodes[nc.name]? with
  | none =>
    have hu : unclaimed nodes nc = true := by rw [unclaimed, hn]; rfl
    exact ⟨hput _ rfl rfl hu, fun h => absurd hu (h ▸ Bool.false_ne_true), fun _ => ⟨_, rfl, rfl⟩⟩
  | some n =>
    have hu : unclaimed nodes nc = registered n := by rw [unclaimed, hn]; rfl
    dsimp only
    rw [hu]
    cases hr : registered n with
    | false => exact ⟨h, fun _ => if_neg Bool.false_ne_true, nofun⟩
    | true =>
      rw [if_pos rfl]
      exact ⟨hput _ rfl hr (hu.trans hr), nofun, fun _ => ⟨_, rfl, rfl⟩⟩

theorem covered_iff {source : NodeSource} {nc : NodeConfig} : covered source nodes nc = true ↔
    ∃ (k : String) (n : Node), nodes[k]? = some n ∧ n.status.source ≠ source ∧
      (n.config.name = nc.name ∨ n.config.engineUrl = nc.engineUrl) := by
  rw [covered, List.any_eq_true]
  constructor
  · rintro ⟨n, hn, h⟩
    obtain ⟨⟨k, n⟩, hk, rfl⟩ := List.mem_map.mp hn
    exact ⟨k, n, KeyMap.mem_toList.mp hk, of_decide_eq_true h⟩
  · rintro ⟨k, n, hk, h⟩
    exact ⟨n, List.mem_map.mpr ⟨(k, n), KeyMap.mem_toList.mpr hk, rfl⟩, decide_eq_true h⟩

/-- The nodes of the other sources are the same. -/
def Foreign (source : NodeSource) (nodes nodes' : KeyMap Node) : Prop :=
  ∀ (k : String) (n : Node), n.status.source ≠ source → (nodes[k]? = some n ↔ nodes'[k]? = some n)

theorem Foreign.covered {source : NodeSource} (h : Foreign source nodes nodes') (nc : NodeConfig) :
    covered source nodes nc = covered source nodes' nc := by
  rw [Bool.eq_iff_iff, covered_iff, covered_iff]
  constructor
  · rintro ⟨k, n, hn, hs, hc⟩
    exact ⟨k, n, (h k n hs).mp hn, hs, hc⟩
  · rintro ⟨k, n, hn, hs, hc⟩
    exact ⟨k, n, (h k n hs).mpr hn, hs, hc⟩

theorem adoptNode_writer (source : NodeSource) (nodes₀ : KeyMap Node) :
    Writer (fun nodes => Keyed nodes ∧ Foreign source nodes nodes₀) (fun nc => !covered source nodes₀ nc)
      (adoptNode source) := by
  intro nodes nc h
  dsimp only
  rw [← h.2.covered nc]
  unfold adoptNode
  cases hc : covered source nodes nc with
  | true => exact ⟨h, fun _ => rfl, nofun⟩
  | false =>
    have hown : ∀ n : Node, nodes[nc.name]? = some n → n.status.source = source := fun n hn =>
      by_contra fun hs => by
        have := covered_iff.mpr ⟨nc.name, n, hn, hs, .inl (h.1 _ n hn)⟩
        rw [hc] at this
        cases this
    have hput : ∀ n : Node, n.config = nc → n.status.source = source →
        Keyed (nodes.insert nc.name n) ∧ Foreign source (nodes.insert nc.name n) nodes₀ := by
      intro n hn hs
      refine ⟨h.1.put hn, fun k x hx => ?_⟩
      rw [KeyMap.get_insert, ← h.2 k x hx]
      split
      · rename_i hk
        subst hk
        refine ⟨fun he => absurd (Option.some.inj he ▸ hs) hx, fun he => absurd (hown x he) hx⟩
      · rfl
    rw [if_neg Bool.false_ne_true]
    cases hn : nodes[nc.name]? with
    | none => exact ⟨hput _ rfl rfl, nofun, fun _ => ⟨_, rfl, rfl⟩⟩
    | some n => exact ⟨hput _ rfl (hown n hn), nofun, fun _ => ⟨_, rfl, rfl⟩⟩

theorem Keyed.filter (h : Keyed nodes) (f : String → Node → Bool) : Keyed (nodes.filter f) := by
  intro k n hn
  rw [Std.ExtTreeMap.getElem?_filter', Option.filter_eq_some_iff] at hn
  exact h k n hn.1

/-- The stored configs of registered nodes. -/
def storedNodes (c : Codecs) (records : Records) : Option (List NodeConfig) :=
  (applyEach c records.toList ({}, [])).toOption.map Prod.snd

/-- What a change writes. -/
def Move.writes (cfg : NodesConfig) (c : Codecs) (w : Registry) : Move → List NodeConfig
  | .configure => cfg.nodes
  | .register a _ =>
    [{ name := a.hostname, engineUrl := engineUrlFrom a.nodeAddr cfg.addressScheme }].filter (unclaimed w.fed.nodes)
  | .deregister _ => []
  | .adoptMembers m list => (wantedMembers cfg m list).filter fun nc => !covered .member w.fed.nodes nc
  | .adoptLocal m discovery =>
    (wantedLocal cfg m w.members discovery).filter fun nc => !covered .local w.fed.nodes nc
  | .replicate payload =>
    if payload.revision ≤ w.fed.revision then [] else payload.registered.filter (unclaimed w.fed.nodes)
  | .load records => ((storedNodes c records).getD []).filter (unclaimed w.fed.nodes)

/-- The nodes that stay through a change, if they are not written. -/
def Move.stays (cfg : NodesConfig) (c : Codecs) (w : Registry) : Move → String → Node → Bool
  | .adoptMembers m list => fun name n =>
    n.status.source ≠ .member ∨ name ∈ (wantedMembers cfg m list).map (·.name)
  | .adoptLocal m discovery =>
    localStays cfg discovery ((wantedLocal cfg m w.members discovery).map (·.name))
  | .load records => fun name n =>
    !registered n || (storedNodes c records).all fun regs => (regs.map (·.name)).contains name
  | _ => fun _ _ => true

theorem laid_registerNode {cfg : NodesConfig} {fed : FedState} (hk : Keyed fed.nodes) (a : Announce) (now : SystemTime) :
    Laid ([{ name := a.hostname, engineUrl := engineUrlFrom a.nodeAddr cfg.addressScheme }].filter
      (unclaimed fed.nodes)) (fun _ _ => true) fed.nodes (fed.registerNode cfg a now).nodes := by
  have hall : ∀ k : String, fed.nodes[k]?.filter (fun _ => true) = fed.nodes[k]? := fun k => by
    cases fed.nodes[k]? <;> rfl
  obtain ⟨n, hput, hname, hnew, hheld⟩ : ∃ n : Node,
      (fed.registerNode cfg a now).nodes = fed.nodes.insert a.hostname n ∧ n.config.name = a.hostname ∧
      ((∀ m ∈ fed.nodes[a.hostname]?, registered m) → n.config.engineUrl = engineUrlFrom a.nodeAddr cfg.addressScheme) ∧
        ∀ m ∈ fed.nodes[a.hostname]?, ¬ registered m → n.config.engineUrl = m.config.engineUrl := by
    refine ⟨_, rfl, ?_, ?_⟩
    · cases hn : fed.nodes[a.hostname]? with
      | none => rfl
      | some n =>
        dsimp only
        split
        · exact hk _ n hn
        · exact hk _ n hn
    · cases fed.nodes[a.hostname]? with
      | none => simp
      | some n => by_cases hr : n.status.source = .registered <;> simp [registered, hr]
  have hkeyed : Keyed (fed.nodes.insert a.hostname n) := hname ▸ hk.insert n
  rw [hput]
  cases hu : unclaimed fed.nodes { name := a.hostname, engineUrl := engineUrlFrom a.nodeAddr cfg.addressScheme } with
  | true =>
    rw [List.filter_cons_of_pos hu]
    have hn : n.config.engineUrl = engineUrlFrom a.nodeAddr cfg.addressScheme :=
      hnew fun m hm => by
        rw [unclaimed, Option.mem_def.mp hm] at hu
        exact hu
    refine ⟨fun k hw => ?_, fun k u hw => ?_, hkeyed⟩
    · rw [urlOf_insert, hall]
      split
      · rename_i hk
        simp [written, hk] at hw
      · rfl
    · obtain ⟨nc, hnc, rfl, rfl⟩ := mem_of_written hw
      obtain rfl := List.mem_singleton.mp hnc
      rw [urlOf_insert, if_pos rfl, hn]
  | false =>
    rw [List.filter_cons_of_neg (by simp [hu])]
    refine ⟨fun k _ => ?_, fun k u hw => (by cases hw), hkeyed⟩
    rw [urlOf_insert, hall]
    split
    · rename_i hk
      subst hk
      rw [unclaimed] at hu
      cases hn : fed.nodes[a.hostname]? with
      | none =>
        rw [hn] at hu
        cases hu
      | some m =>
        rw [hn] at hu
        rw [hheld m hn (by simpa using hu)]
        rfl
    · rfl

theorem laid_applyConfigNodes (hk : Keyed nodes) (configured : List NodeConfig) :
    Laid configured (fun _ _ => true) nodes (configured.foldl applyConfigNode nodes) := by
  have h : Laid (configured.filter fun _ => true) (fun _ _ => true) nodes (configured.foldl applyConfigNode nodes) :=
    Laid.of_foldl (fun _ h => h) applyConfigNode_writer hk fun k => by cases nodes[k]? <;> rfl
  rwa [List.filter_true] at h

theorem step_load (cfg : NodesConfig) (c : Codecs) (w : Registry) (records : Records) :
    w.step cfg c (.load records) = match applyRecords c w.fed records with
      | .ok fed => { w with fed := fed }
      | .error _ => w := rfl

theorem laid (cfg : NodesConfig) (c : Codecs) {w : Registry} (hk : Keyed w.fed.nodes) (mv : Move) :
    Laid (mv.writes cfg c w) (mv.stays cfg c w) w.fed.nodes (w.step cfg c mv).fed.nodes := by
  have hall : ∀ k : String, w.fed.nodes[k]? = w.fed.nodes[k]?.filter fun _ => true := fun k => by
    cases w.fed.nodes[k]? <;> rfl
  cases mv with
  | configure => exact laid_applyConfigNodes hk cfg.nodes
  | register a now => exact laid_registerNode hk a now
  | deregister nodeAddr =>
    refine ⟨fun k _ => ?_, fun k u hw => (by cases hw), fun k n hn => ?_⟩
    · change (Std.ExtTreeMap.map _ w.fed.nodes)[k]?.map _ = (w.fed.nodes[k]?.filter fun _ => true).map _
      rw [← hall k, Std.ExtTreeMap.getElem?_map, Option.map_map]
      refine Option.map_congr fun n _ => ?_
      dsimp only [Function.comp]
      split <;> rfl
    · change (Std.ExtTreeMap.map _ w.fed.nodes)[k]? = some n at hn
      rw [Std.ExtTreeMap.getElem?_map, Option.map_eq_some_iff] at hn
      obtain ⟨n, hn, rfl⟩ := hn
      have := hk k n hn
      split <;> exact this
  | adoptMembers m list =>
    refine Laid.of_foldl (fun _ h => h.1) (adoptNode_writer .member w.fed.nodes) ⟨hk.filter _, fun k n hn => ?_⟩
      fun k => Std.ExtTreeMap.getElem?_filter'
    rw [Std.ExtTreeMap.getElem?_filter', Option.filter_eq_some_iff]
    exact and_iff_left (by simp [hn])
  | adoptLocal m discovery =>
    obtain ⟨hgood, hold, hnew⟩ := laid_foldl (adoptNode_writer .local w.fed.nodes)
      (wantedLocal cfg m w.members discovery) ⟨hk, fun _ _ _ => Iff.rfl⟩
    refine ⟨fun k hw => ?_, fun k u hw => ?_, hgood.1.filter _⟩
    · change (Std.ExtTreeMap.filter _ _)[k]?.map _ = _
      rw [Std.ExtTreeMap.getElem?_filter', hold k hw]
      rfl
    · obtain ⟨nc, hnc, rfl, -⟩ := mem_of_written hw
      obtain ⟨n, hn, rfl⟩ := Option.map_eq_some_iff.mp (hnew _ u hw)
      change (Std.ExtTreeMap.filter _ _)[nc.name]?.map _ = _
      rw [Std.ExtTreeMap.getElem?_filter', hn, Option.filter_some, if_pos]
      · rfl
      · exact decide_eq_true (.inr (.inl (List.mem_map_of_mem (List.mem_filter.mp hnc).1)))
  | replicate payload =>
    change Laid (if payload.revision ≤ w.fed.revision then [] else payload.registered.filter (unclaimed w.fed.nodes))
      (fun _ _ => true) w.fed.nodes (w.fed.applyPayload payload).2.nodes
    unfold FedState.applyPayload
    split
    · exact Laid.refl hk
    · rw [adopt_eq]
      exact Laid.of_foldl (fun _ h => h.1) (adoptRegistered_writer w.fed.nodes) ⟨hk, rfl⟩ hall
  | load records =>
    rw [step_load]
    change Laid (((storedNodes c records).getD []).filter (unclaimed w.fed.nodes)) (fun name n => !registered n ||
        (storedNodes c records).all fun regs => (regs.map (·.name)).contains name) w.fed.nodes _
    unfold applyRecords storedNodes
    cases applyEach c records.toList ({}, []) with
    | error e =>
      have h := Laid.refl hk
      simp only [Except.toOption, Option.map_none, Option.getD_none, Option.all_none, Bool.or_true]
      exact h
    | ok x =>
      obtain ⟨next, regs⟩ := x
      set kept := w.fed.nodes.filter fun n node => !registered node || (regs.map (·.name)).contains n with hkept
      -- a node of another source is kept
      have hun : unclaimed kept = unclaimed w.fed.nodes := by
        funext nc
        rw [unclaimed, unclaimed, hkept, Std.ExtTreeMap.getElem?_filter']
        cases w.fed.nodes[nc.name]? with
        | none => rfl
        | some n =>
          rw [Option.filter_some]
          cases hr : registered n with
          | true =>
            split <;> simp [hr]
          | false => rfl
      exact Laid.of_foldl (fun _ h => h.1) (adoptRegistered_writer w.fed.nodes) ⟨hk.filter _, hun⟩ fun k =>
        Std.ExtTreeMap.getElem?_filter'

/-! ## Runs -/

theorem written_apart {ncs : List NodeConfig} (h : ncs.Pairwise fun a b => key a.engineUrl ≠ key b.engineUrl) (a b : String)
    (u v : String) (ha : written ncs a = some u) (hb : written ncs b = some v) (he : key u = key v) : a = b := by
  obtain ⟨x, hx, rfl, rfl⟩ := mem_of_written ha
  obtain ⟨y, hy, rfl, rfl⟩ := mem_of_written hb
  by_contra hne
  have : Std.Symm fun a b : NodeConfig => key a.engineUrl ≠ key b.engineUrl := ⟨fun _ _ h => h.symm⟩
  exact h.forall hx hy (fun hxy => hne (by rw [hxy])) he

theorem keyed_empty : Keyed ∅ := fun k n hn => by
  rw [KeyMap.get_empty] at hn
  cases hn

theorem laid_start (cfg : NodesConfig) : Laid cfg.nodes (fun _ _ => true) ∅ (start cfg).fed.nodes :=
  laid_applyConfigNodes keyed_empty cfg.nodes

theorem distinct_start {cfg : NodesConfig} (h : cfg.nodes.Pairwise fun a b => key a.engineUrl ≠ key b.engineUrl) :
    DistinctUrls key (start cfg).fed.nodes := by
  refine (distinct_laid (laid_start cfg) fun a b u v ha => ?_).mpr ⟨written_apart h, fun a b u n _ _ hn => ?_⟩
  · rw [urlOf, KeyMap.get_empty] at ha
    cases ha
  · rw [KeyMap.get_empty] at hn
    cases hn

theorem keyed_run (cfg : NodesConfig) (c : Codecs) (moves : List Move) : Keyed (run cfg c moves).fed.nodes := by
  induction moves using List.reverseRecOn with
  | nil => exact (laid_start cfg).keyed
  | append_singleton moves mv ih =>
    rw [run, List.foldl_append]
    exact (laid cfg c ih mv).keyed

/-- What the next change writes is clear of the nodes that stay. -/
def ClearNext (key : String → κ) (cfg : NodesConfig) (c : Codecs) (w : Registry) (mv : Move) : Prop :=
  Clear key (mv.writes cfg c w) (mv.stays cfg c w) w.fed.nodes

/-- No two nodes come to have one engine's URL, just where every change is
clear of the nodes that stay. -/
theorem distinctUrls_iff (key : String → κ) (cfg : NodesConfig) (c : Codecs)
    (hcfg : cfg.nodes.Pairwise fun a b => key a.engineUrl ≠ key b.engineUrl) (moves : List Move) :
    (∀ ms, ms <+: moves → DistinctUrls key (run cfg c ms).fed.nodes) ↔
      ∀ ms mv, ms ++ [mv] <+: moves → ClearNext key cfg c (run cfg c ms) mv := by
  have hstep : ∀ ms mv, DistinctUrls key (run cfg c ms).fed.nodes →
      (DistinctUrls key (run cfg c (ms ++ [mv])).fed.nodes ↔ ClearNext key cfg c (run cfg c ms) mv) := by
    intro ms mv hd
    rw [run, List.foldl_append]
    exact distinct_laid (laid cfg c (keyed_run cfg c ms) mv) hd
  constructor
  · intro h ms mv hms
    exact (hstep ms mv (h ms ((List.prefix_append ms [mv]).trans hms))).mp (h _ hms)
  · intro h ms
    induction ms using List.reverseRecOn with
    | nil => exact fun _ => distinct_start hcfg
    | append_singleton ms mv ih =>
      intro hms
      exact (hstep ms mv (ih ((List.prefix_append ms [mv]).trans hms))).mpr (h ms mv hms)

/-- A serializer that reads nothing. -/
def unread (α : Type) : Codec α where
  toString _ := ""
  fromStr _ := .error "unread"

def unreadCodecs : Codecs :=
  ⟨unread _, unread _, unread _, unread _, unread _, unread _, unread _, unread _, unread _, unread _⟩

def pair : NodesConfig where
  nodes := [{ name := "a", engineUrl := "http://10.0.0.1:9090" }, { name := "b", engineUrl := "http://10.0.0.2:9090" }]

/-- Two configured nodes, and a third that registers itself. -/
theorem distinctUrls_pair :
    (run pair unreadCodecs [.register { nodeAddr := "10.0.0.3", hostname := "c" } 0]).fed.nodes.keys = ["a", "b", "c"] ∧
      DistinctUrls id (run pair unreadCodecs [.register { nodeAddr := "10.0.0.3", hostname := "c" } 0]).fed.nodes := by
  refine ⟨by decide +kernel, (distinctUrls_iff id pair unreadCodecs (by decide) _).mpr (fun ms mv hms => ?_) _
    (List.prefix_refl _)⟩
  obtain ⟨rfl, rfl⟩ : ms = [] ∧ mv = .register { nodeAddr := "10.0.0.3", hostname := "c" } 0 := by
    obtain ⟨rest, hrest⟩ := hms
    cases ms with
    | nil => exact ⟨rfl, (List.cons.inj hrest).1⟩
    | cons x xs => simp at hrest
  have hw : Move.writes pair unreadCodecs (run pair unreadCodecs [])
      (.register { nodeAddr := "10.0.0.3", hostname := "c" } 0) =
      [{ name := "c", engineUrl := "http://10.0.0.3:9090" }] := by decide +kernel
  have hc : ∀ a u, written [{ name := "c", engineUrl := "http://10.0.0.3:9090" }] a = some u →
      "c" = a ∧ "http://10.0.0.3:9090" = u := by
    intro a u h
    obtain ⟨nc, hnc, rfl, rfl⟩ := mem_of_written h
    obtain rfl := List.mem_singleton.mp hnc
    exact ⟨rfl, rfl⟩
  rw [ClearNext, hw]
  refine ⟨fun a b u v ha hb _ => (hc a u ha).1.symm.trans (hc b v hb).1, fun a b u n ha hb hn hs => ?_⟩
  obtain ⟨rfl, rfl⟩ := hc a u ha
  have hall : ((run pair unreadCodecs []).fed.nodes.toList.all fun p => p.2.config.engineUrl ≠ "http://10.0.0.3:9090") =
      true := by decide +kernel
  exact of_decide_eq_true (List.all_eq_true.mp hall (b, n) (KeyMap.mem_toList.mpr hn))

/-- Two engines at one address register under two names. -/
theorem not_distinctUrls : ¬ ∀ (cfg : NodesConfig) (c : Codecs) (moves : List Move),
    (cfg.nodes.Pairwise fun a b => a.engineUrl ≠ b.engineUrl) → DistinctUrls id (run cfg c moves).fed.nodes := by
  intro h
  have hd := h {} unreadCodecs [.register { nodeAddr := "10.0.0.1", hostname := "a" } 0,
    .register { nodeAddr := "10.0.0.1", hostname := "b" } 0] .nil
  exact absurd (hd "a" "b" "http://10.0.0.1:9090" "http://10.0.0.1:9090" (by decide +kernel) (by decide +kernel) rfl)
    (by decide)

end Registry

end StormStorage
