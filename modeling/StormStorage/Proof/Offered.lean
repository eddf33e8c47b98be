import StormStorage.Proof.Registry
import StormStorage.Proof.Steps.Regained
import StormStorage.Proof.Steps.Sent
import StormStorage.Proof.VmMigrate

/-!
# What changes the state comes with a new revision

Every write of an operation comes with a new revision, from any state and
whatever goes on beside it, but for those of `Unoffered` and for a heartbeat
from a known host's new address (`offered_iff`). `not_offered_exported` is a request for
a host that the record has not, for a volume that cannot be served yet.

* `offered_prog`: the migrations of volumes;
* `offered_node`: the changes of the node registry.
-/

namespace StormStorage

open Await Task

/-! ## The migrations of volumes -/

namespace VmMigrate

section

variable {α : Type} {hostNqnFor : String → String} {me : Nat} {id : String} {m : VmMigration}

/-- The step is offered. -/
def Sends (w w' : AppState) : Prop := Offered w.fed w'.fed

theorem sends_of_fed {w w' : AppState} (h : w'.fed = w.fed) : Sends w w' := offered_of_eq h

theorem sends_calm {t : Async α} (ht : t.Only Calm) : t.Only Sends := ht.mono fun _ _ h => sends_of_fed (by rw [h.eq])

theorem sends_quiet {t : Async α} (ht : t.Quiet) : t.Only Sends := sends_calm (calm_quiet ht)

theorem sends_update {f : VmMigration → VmMigration} : (update id f).Only Sends := by
  refine only_atomic fun _ w => ?_
  split
  · exact sends_of_fed rfl
  · exact offered_revise rfl

theorem sends_getMigration : (getMigration id).Only Sends := by
  refine (sends_quiet (quiet_get _)).bind fun m => ?_
  split <;> trivial

theorem sends_makeTarget : (makeTarget me m).Only Sends := by
  unfold makeTarget
  split
  · trivial
  · refine (sends_calm (calm_withContext (calm_createVolume _ _ _) _)).bind fun v => ?_
    split
    · trivial
    · exact sends_update.bind fun _ => trivial

theorem sends_findLocal : (findLocal m).Only Sends := by
  unfold findLocal
  split
  · trivial
  · exact (sends_quiet (quiet_withContext (quiet_localVolumeId _ _) _)).bind fun l => sends_update.bind fun _ => trivial

theorem sends_serveTarget : (serveTarget hostNqnFor m).Only Sends := by
  unfold serveTarget
  split
  · trivial
  · exact (sends_quiet (quiet_withContext (quiet_inquire _) _)).bind fun a => sends_update.bind fun _ => trivial

theorem sends_advance : (advance hostNqnFor me id).Only Sends := by
  refine sends_getMigration.bind fun m => ?_
  split
  · trivial
  · refine (sends_quiet (quiet_engine _)).bind fun _ => sends_makeTarget.bind fun _ => sends_findLocal.bind fun _ => ?_
    refine sends_serveTarget.bind fun a => (sends_calm (calm_startMirror _ _)).bind fun _ => ?_
    exact sends_update.bind fun _ => trivial

theorem sends_refresh : (refresh id).Only Sends := by
  refine sends_getMigration.bind fun m => (sends_quiet (quiet_readMirror m)).bind fun _ => ?_
  dsimp only
  split
  · exact sends_update.bind fun _ => trivial
  · trivial

theorem sends_withdraw : (withdraw m).Only Sends := by
  unfold withdraw
  split
  · refine (sends_quiet (quiet_engine _)).bind fun _ => ?_
    exact (sends_quiet (quiet_unlessGone (quiet_inquire _))).bind fun _ => sends_update.bind fun _ => trivial
  · trivial

theorem sends_handOver : (handOver id).Only Sends := by
  refine sends_update.bind fun r => ?_
  split
  · trivial
  · refine sends_withdraw.attempt.bind fun x => ?_
    split
    · exact sends_getMigration
    · exact sends_update.bind fun _ => sends_getMigration

theorem sends_switchOver : (switchOver m).Only Sends := by
  refine (sends_quiet (quiet_engine _)).bind fun _ => (sends_quiet (quiet_live m)).bind fun now => ?_
  split
  · trivial
  · refine (sends_calm (calm_withContext (calm_stopMirror _ _) _)).bind fun stopped => ?_
    split
    · exact sends_handOver
    · exact sends_update.bind fun _ => trivial

theorem sends_cutover : (cutover id).Only Sends := by
  refine sends_getMigration.bind fun m => ?_
  split
  · trivial
  · split
    · exact sends_withdraw.attempt.bind fun _ => sends_getMigration
    · exact sends_withdraw.attempt.bind fun _ => sends_getMigration
    · trivial
    · trivial
    · trivial
    · exact sends_switchOver
    · exact sends_switchOver

theorem sends_deleteCopy {copy : Copy} {node volume : String} : (deleteCopy id copy node volume).Only Sends := by
  have hcall : (call (fun _ w => (w.destroyOn node volume).note (.copyDeleted id copy node volume))
      fun _ _ => .ok () : Async Unit).Only Remote :=
    remote_call fun _ w => (remote_destroyOn w node volume).trans (remote_note _ _)
  refine (hcall.mono fun _ _ h => sends_of_fed h.fed).attempt.bind fun x => ?_
  cases x with
  | ok _ => trivial
  | error e =>
    dsimp only
    split <;> trivial

theorem sends_complete : (complete id).Only Sends := by
  refine sends_getMigration.bind fun m => ?_
  split
  · trivial
  · split
    · trivial
    · refine (sends_quiet (quiet_engine _)).bind fun _ => sends_deleteCopy.attempt.bind fun x => ?_
      split
      · exact sends_update.bind fun _ => trivial
      · refine sends_withdraw.attempt.bind fun _ => sends_update.bind fun r => ?_
        split <;> trivial
  · trivial

theorem sends_deleteTarget {volume : Option String} : (deleteTarget m volume).Only Sends := by
  unfold deleteTarget
  split
  · exact sends_deleteCopy
  · trivial

theorem sends_undoTarget : (undoTarget m).Only Sends := by
  unfold undoTarget
  split
  · trivial
  · refine (sends_quiet (quiet_engine _)).bind fun _ => (sends_quiet (quiet_withdrawTarget m)).bind fun _ => ?_
    exact sends_deleteTarget.bind fun _ => sends_deleteTarget

theorem sends_setAborting : (setAborting m).Only Sends := by
  unfold setAborting
  split
  · trivial
  · refine only_atomic fun _ w => ?_
    dsimp only
    split
    · exact sends_of_fed rfl
    · rename_i r _
      exact offered_revise (f := fun fed => { fed with
        vmMigrations := fed.vmMigrations.insert m.id { r with aborting := true } }) rfl

theorem sends_finishAbort : (finishAbort m).Only Sends := by
  have hsteps : (abortSteps m).Only Sends := (sends_calm (calm_stopOurs m)).bind fun _ => sends_undoTarget
  refine hsteps.attempt.bind fun x => ?_
  split
  · exact sends_update.bind fun _ => trivial
  · refine sends_update.bind fun r => ?_
    split <;> trivial

theorem sends_abort : (abort id).Only Sends := by
  refine sends_getMigration.bind fun m => ?_
  split
  · trivial
  · trivial
  · exact sends_setAborting.bind fun _ => sends_finishAbort

theorem sends_fail {e : Fault} : (fail id e).Only Sends := sends_update.bind fun _ => trivial

theorem sends_restart : (restart hostNqnFor me id).Only Sends := by
  refine sends_update.bind fun _ => sends_advance.attempt.bind fun x => ?_
  split
  · exact sends_fail.bind fun _ => trivial
  · exact sends_getMigration

theorem sends_retry : (retry hostNqnFor me id).Only Sends := by
  refine sends_getMigration.bind fun m => ?_
  split
  · trivial
  · split
    · trivial
    · refine (sends_quiet (quiet_engine _)).bind fun _ => (sends_quiet (quiet_inquire _)).bind fun v => ?_
      split
      · split
        · exact (sends_calm (calm_stopMirror _ _)).bind fun _ => sends_restart
        · trivial
      · exact sends_restart

theorem sends_claim {k : String} : (claim me k).Only Sends := by
  refine only_atomic fun _ w => ?_
  split <;> exact sends_of_fed rfl

theorem sends_release {k : String} : (release k).Only Sends := only_atomic fun _ _ => sends_of_fed rfl

theorem sends_claimed {f : Async VmMigration} (hf : f.Only Sends) : (claimed me id f).Only Sends := by
  refine (sends_quiet (quiet_get _)).bind fun known => ?_
  split
  · trivial
  · refine sends_claim.bind fun mine => ?_
    split
    · trivial
    · exact hf.attempt.bind fun r => sends_release.bind fun _ => only_ofExcept _

theorem sends_undoMade : (undoMade id).Only Sends := by
  refine Only.bind (only_atomic fun _ w => sends_of_fed rfl) fun r => ?_
  split
  · exact sends_undoTarget.attempt.bind fun _ => trivial
  · trivial

theorem sends_begin : (begin hostNqnFor me m).Only Sends := by
  refine sends_advance.attempt.bind fun x => ?_
  split
  · exact sends_release.bind fun _ => (sends_quiet (quiet_get _)).bind fun _ => trivial
  · refine sends_undoMade.bind fun _ => Only.bind (only_atomic fun _ w => ?_) fun _ => trivial
    exact offered_revise (f := fun fed => { fed with vmMigrations := fed.vmMigrations.erase m.id }) rfl

theorem sends_openMigration {node target : String} {p : Planned} : (openMigration me node target p).Only Sends := by
  refine Only.bind (only_atomic fun i w => ?_) fun x => only_ofExcept x
  dsimp only
  split
  · exact sends_of_fed rfl
  · exact .inr (Nat.lt_succ_self _)

theorem sends_start {node vol : String} {body : MigrateBody} : (start hostNqnFor me node vol body).Only Sends :=
  (sends_quiet (quiet_planMigration node vol body)).bind fun _ => sends_openMigration.bind fun _ => sends_begin

theorem sends_resume {sOk tOk : Bool} : (resume hostNqnFor me m sOk tOk).Only Sends := by
  have hrefresh : (if sOk then refresh m.id else return () : Async Unit).Only Sends := by
    split
    · exact sends_refresh
    · trivial
  have hwithdraw : (if m.targetAttach.isSome ∧ tOk then withdraw m else return () : Async Unit).Only Sends := by
    split
    · exact sends_withdraw
    · trivial
  unfold resume
  split
  · exact sends_abort.bind fun _ => trivial
  · split
    · refine sends_advance.attempt.bind fun x => ?_
      split
      · trivial
      · exact sends_fail.bind fun _ => trivial
    · exact hrefresh
    · exact hrefresh
    · exact hwithdraw
    · exact hwithdraw
    · trivial
    · trivial

theorem sends_run : (runMigrations hostNqnFor me).Only Sends := by
  refine Only.bind (only_atomic fun _ w => sends_of_fed rfl) fun r => only_forEach (fun m => ?_) _
  unfold reconcileOne
  split
  · exact only_atomic fun _ _ => offered_revise rfl
  · refine sends_claim.bind fun mine => ?_
    split
    · refine (sends_quiet (quiet_get _)).bind fun _ => (sends_quiet (quiet_get _)).bind fun _ => ?_
      exact sends_resume.attempt.bind fun _ => sends_release
    · trivial

/-- The steps of every migration. -/
theorem offered_prog (op : Op) : (prog hostNqnFor me op).Only fun w w' => Offered w.fed w'.fed := by
  cases op with
  | start node vol body => exact sends_start.bind fun _ => trivial
  | cutover id => exact (sends_claimed sends_cutover).bind fun _ => trivial
  | complete id => exact (sends_claimed sends_complete).bind fun _ => trivial
  | abort id => exact (sends_claimed sends_abort).bind fun _ => trivial
  | retry id => exact (sends_claimed sends_retry).bind fun _ => trivial
  | run => exact sends_run

end

end VmMigrate

/-! ## The node registry -/

namespace Registry

/-- A request, or a pass of the reconciler, about nodes. -/
inductive Request where
  | register (a : Announce) (now : SystemTime)
  | deregister (nodeAddr : String)
  | adoptMembers (m : Machine) (list : List Member)
  | adoptLocal (m : Machine) (discovery : Option Discovery)
  | replicate (payload : Payload)

def Request.move : Request → Move
  | .register a now => .register a now
  | .deregister nodeAddr => .deregister nodeAddr
  | .adoptMembers m list => .adoptMembers m list
  | .adoptLocal m discovery => .adoptLocal m discovery
  | .replicate payload => .replicate payload

/-- A heartbeat of a registered node that has another address now. -/
def Readdresses (cfg : NodesConfig) (w : Registry) : Request → Prop
  | .register a _ => ∃ n, w.fed.nodes[a.hostname]? = some n ∧ n.status.source = .registered ∧
      engineUrlFrom a.nodeAddr cfg.addressScheme ≠ n.config.engineUrl
  | _ => False

section

variable {cfg : NodesConfig} {c : Codecs} {w : Registry} {nodes nodes' : KeyMap Node} {fed : FedState}

/-- What is sent of a node. -/
def sentConfig (n : Node) : Option NodeConfig := if n.status.source = .registered then some n.config else none

theorem registered_eq (h : ∀ k : String, nodes'[k]?.bind sentConfig = nodes[k]?.bind sentConfig) :
    (nodes'.toList.map Prod.snd).filterMap sentConfig = (nodes.toList.map Prod.snd).filterMap sentConfig := by
  have hlist : ∀ nodes : KeyMap Node, (nodes.toList.map Prod.snd).filterMap sentConfig =
      ((nodes.filterMap fun _ n => sentConfig n).toList.map Prod.snd) := by
    intro nodes
    rw [Std.ExtTreeMap.toList_filterMap, List.filterMap_map, List.map_filterMap]
    refine List.filterMap_congr fun x _ => ?_
    cases hx : sentConfig x.2 <;> simp [hx]
  have hmaps : (nodes'.filterMap fun _ n => sentConfig n) = nodes.filterMap fun _ n => sentConfig n := by
    refine KeyMap.ext fun k => ?_
    rw [Std.ExtTreeMap.getElem?_filterMap', Std.ExtTreeMap.getElem?_filterMap']
    exact h k
  rw [hlist, hlist, hmaps]

/-- Other nodes, of which the same are sent. -/
theorem sent_nodes (h : ∀ k : String, nodes[k]?.bind sentConfig = fed.nodes[k]?.bind sentConfig) (r : Nat) :
    ({ fed with nodes := nodes, revision := r } : FedState).sent = fed.sent := by
  have hreg : (buildPayload { fed with nodes := nodes, revision := r }).registered = (buildPayload fed).registered :=
    registered_eq h
  unfold FedState.sent
  rw [hreg]
  rfl

theorem sent_foreign {source : NodeSource} (hs : source ≠ .registered) (h : Foreign source nodes nodes') (k : String) :
    nodes[k]?.bind sentConfig = nodes'[k]?.bind sentConfig := by
  have hreg : ∀ {n : Node} {nc : NodeConfig}, sentConfig n = some nc → n.status.source ≠ source := by
    intro n nc hn
    unfold sentConfig at hn
    split at hn
    · rename_i he
      exact fun hc => hs (hc.symm.trans he)
    · cases hn
  refine Option.ext fun nc => ?_
  simp only [Option.bind_eq_some_iff]
  constructor
  · rintro ⟨n, hn, he⟩
    exact ⟨n, (h k n (hreg he)).mp hn, he⟩
  · rintro ⟨n, hn, he⟩
    exact ⟨n, (h k n (hreg he)).mpr hn, he⟩

/-- Nodes adopted from `source`, over what was kept. -/
theorem foreign_adopted {source : NodeSource} (hk : Keyed nodes) (ncs : List NodeConfig) :
    Foreign source (ncs.foldl (adoptNode source) nodes) nodes :=
  (laid_foldl (adoptNode_writer source nodes) ncs ⟨hk, fun _ _ _ => Iff.rfl⟩).1.2

theorem foreign_filter {source : NodeSource} {f : String → Node → Bool}
    (hf : ∀ k n, n.status.source ≠ source → f k n = true) : Foreign source (nodes.filter f) nodes := by
  intro k n hn
  rw [Std.ExtTreeMap.getElem?_filter', Option.filter_eq_some_iff]
  exact and_iff_left (hf k n hn)

theorem Foreign.trans {source : NodeSource} {nodes'' : KeyMap Node} (h : Foreign source nodes nodes')
    (h' : Foreign source nodes' nodes'') : Foreign source nodes nodes'' :=
  fun k n hn => (h k n hn).trans (h' k n hn)

theorem offered_foreign {source : NodeSource} (hs : source ≠ .registered) (h : Foreign source nodes fed.nodes) :
    Offered fed { fed with nodes := nodes } :=
  .inl (sent_nodes (sent_foreign hs h) fed.revision)

theorem sent_registerNode (a : Announce) (now : SystemTime) {n : Node} (hn : fed.nodes[a.hostname]? = some n)
    (h : n.status.source = .registered → engineUrlFrom a.nodeAddr cfg.addressScheme = n.config.engineUrl) :
    (fed.registerNode cfg a now).sent = fed.sent := by
  refine sent_nodes (fun k => ?_) _
  rw [KeyMap.get_insert, hn]
  split
  · rename_i hk
    subst hk
    rw [hn]
    simp only [Option.bind_some, sentConfig]
    split
    · rw [h ‹_›]
    · rfl
  · rfl

/-- A node of that name and address is sent after its heartbeat. -/
theorem registered_registerNode (a : Announce) (now : SystemTime) {n : Node} (hn : fed.nodes[a.hostname]? = some n)
    (hr : n.status.source = .registered) :
    { n.config with engineUrl := engineUrlFrom a.nodeAddr cfg.addressScheme } ∈
      (buildPayload (fed.registerNode cfg a now)).registered := by
  refine List.mem_filterMap.mpr ⟨_, List.mem_map.mpr ⟨(a.hostname, _), KeyMap.mem_toList.mpr
    (KeyMap.get_insert_self _ _ _), rfl⟩, ?_⟩
  rw [hn]
  simp [hr]

theorem mem_registered {nc : NodeConfig} (hk : Keyed fed.nodes) (h : nc ∈ (buildPayload fed).registered) :
    ∃ n, fed.nodes[nc.name]? = some n ∧ n.config = nc := by
  obtain ⟨n, hn, hs⟩ := List.mem_filterMap.mp h
  obtain ⟨⟨k, n⟩, hm, rfl⟩ := List.mem_map.mp hn
  have hget := KeyMap.mem_toList.mp hm
  split at hs
  · obtain rfl := Option.some.inj hs
    exact ⟨n, by rwa [hk k n hget], rfl⟩
  · cases hs

theorem offered_registerNode (hk : Keyed fed.nodes) (a : Announce) (now : SystemTime) :
    Offered fed (fed.registerNode cfg a now) ↔ ¬ ∃ n, fed.nodes[a.hostname]? = some n ∧
      n.status.source = .registered ∧ engineUrlFrom a.nodeAddr cfg.addressScheme ≠ n.config.engineUrl := by
  cases hn : fed.nodes[a.hostname]? with
  | none =>
    refine iff_of_true (.inr ?_) (by simp)
    show fed.revision < if fed.nodes.contains a.hostname then _ else _
    rw [KeyMap.contains_eq, hn]
    exact Nat.lt_succ_self _
  | some n =>
    have hrev : (fed.registerNode cfg a now).revision = fed.revision := by
      show (if fed.nodes.contains a.hostname then _ else _) = _
      rw [KeyMap.contains_eq, hn]
      rfl
    constructor
    · rintro (hs | hs) ⟨n', hn', hr, hne⟩
      · obtain rfl := Option.some.inj hn'
        have hmem : { n.config with engineUrl := engineUrlFrom a.nodeAddr cfg.addressScheme } ∈
            (buildPayload (fed.registerNode cfg a now)).registered := registered_registerNode a now hn hr
        rw [show (buildPayload (fed.registerNode cfg a now)).registered = (buildPayload fed).registered from
          congrArg Prod.snd hs] at hmem
        obtain ⟨x, hx, he⟩ := mem_registered hk hmem
        have hname : n.config.name = a.hostname := hk _ n hn
        rw [show (({ n.config with engineUrl := engineUrlFrom a.nodeAddr cfg.addressScheme } : NodeConfig).name) =
          a.hostname from hname, hn] at hx
        obtain rfl := Option.some.inj hx
        exact hne (congrArg NodeConfig.engineUrl he).symm
      · omega
    · intro h
      exact .inl (sent_registerNode a now hn fun hr => by_contra fun hne => h ⟨n, rfl, hr, hne⟩)

/-- The changes of the node registry. -/
theorem offered_node (hk : Keyed w.fed.nodes) (r : Request) :
    Offered w.fed (w.step cfg c r.move).fed ↔ ¬ Readdresses cfg w r := by
  cases r with
  | register a now => exact offered_registerNode hk a now
  | deregister nodeAddr =>
    refine iff_of_true (.inl (sent_nodes (fun k => ?_) _)) id
    rw [Std.ExtTreeMap.getElem?_map]
    cases w.fed.nodes[k]? with
    | none => rfl
    | some n =>
      simp only [Option.map_some, Option.bind_some, sentConfig]
      split <;> rfl
  | adoptMembers m list =>
    refine iff_of_true (offered_foreign (show NodeSource.member ≠ .registered by decide) ?_) id
    refine (foreign_adopted (hk.filter _) _).trans (foreign_filter fun k n hn => ?_)
    exact decide_eq_true (.inl hn)
  | adoptLocal m discovery =>
    refine iff_of_true (offered_foreign (show NodeSource.local ≠ .registered by decide) ?_) id
    refine (foreign_filter fun k n hn => ?_).trans (foreign_adopted hk _)
    exact decide_eq_true (.inl hn)
  | replicate payload =>
    refine iff_of_true ?_ id
    show Offered w.fed (w.fed.applyPayload payload).2
    unfold FedState.applyPayload
    split
    · exact offered_of_eq rfl
    · refine .inr ?_
      show w.fed.revision < payload.revision
      omega

end

end Registry

/-! ## Every operation -/

/-- An operation's step is offered unless it is one of `Unoffered`; a change of
the registry, unless it is a heartbeat from another address. -/
theorem offered_iff (cfg : Config) (me : Nat) (op : VolumeOp) (hostNqnFor : String → String) (mop : VmMigrate.Op)
    (ncfg : NodesConfig) (c : Codecs) (moves : List Registry.Move) (r : Registry.Request) :
    ((program cfg me op).Only fun w w' => Offered w.fed w'.fed ↔ ¬ Unoffered w w') ∧
      ((VmMigrate.prog hostNqnFor me mop).Only fun w w' => Offered w.fed w'.fed) ∧
      (Offered (Registry.run ncfg c moves).fed ((Registry.run ncfg c moves).step ncfg c r.move).fed ↔
        ¬ Registry.Readdresses ncfg (Registry.run ncfg c moves) r) := by
  refine ⟨?_, VmMigrate.offered_prog mop, ?_⟩
  · exact (offers_program op).mono fun w w' h => ⟨fun ho hu => hu.not_offered ho, fun hu => h.resolve_right hu⟩
  · exact Registry.offered_node (Registry.keyed_run ncfg c moves) r

/-- A mirror that is not assembled yet. -/
def pendingVolume : DistVolume := { rackVolume with assembly := .pendingEngineSupport, head := none, arrayId := none }

/-- It is asked to be served to one more host, which is recorded and fails. -/
theorem not_offered_exported : ¬ ∀ (cfg : Config) (me : Nat) (op : VolumeOp) (w w' : AppState) (x : Except Fault Unit),
    (program cfg me op).Ends w x w' → Offered w.fed w'.fed := by
  intro h
  let asked : VolumeOp := .export "v" { hosts := [{ hostNqn := "nqn.h" }] }
  let start : AppState := .having pendingVolume
  have hrun : (((program plainConfig 0 asked).run [{}, {}] start).map fun r =>
      (r.2.fed.revision, (r.2.fed.volumes["v"]?).map (·.export.hosts.length))) = some (0, some 1) := by decide +kernel
  obtain ⟨⟨x, w'⟩, hr, hw⟩ := Option.map_eq_some_iff.mp hrun
  obtain ⟨hrev, hhosts⟩ := Prod.mk.inj hw
  refine not_offered "v" hrev (fun he => ?_) (h _ _ _ _ _ _ (ends_of_run hr))
  have := congrArg (Option.map fun v : DistVolume => v.export.hosts.length) he
  rw [Option.map_map, Option.map_map] at this
  exact absurd (this.trans hhosts) (by decide +kernel)

end StormStorage
