import StormStorage.Registry

/-!
# Where the apiserver's bearer goes

The `[kubernetes]` bearer is meant for the engines of the cluster's members
and the one on this machine. `confined_iff` says when a node's client keeps it
to them: the token does, the admin credential falls back on the bearer for
any engine. `not_confined` is an engine that registered itself and is handed it.

* `Engine.presents_iff`: what a client's requests show an engine;
* `engineToken_outside`, `adminCredential_outside`: the two credentials for an
  engine that is neither here nor a member's.
-/

namespace StormStorage

/-! ## Texts -/

theorem all_dropWhile {α : Type} (p : α → Bool) (l : List α) : (l.dropWhile p).all p = l.all p := by
  conv => rhs; rw [← List.takeWhile_append_dropWhile (p := p) (l := l)]
  rw [List.all_append, List.all_takeWhile, Bool.true_and]

theorem blank_trimText (s : String) : blank (trimText s) = blank s := by
  rw [blank, trimText, String.toList_ofList, List.rdropWhile, List.all_reverse, all_dropWhile, List.all_reverse,
    all_dropWhile, blank]

theorem ne_empty_of_not_blank {s : String} (h : blank s = false) : s ≠ "" := by
  rintro rfl
  cases h

/-! ## A client's requests -/

/-- A request of the client shows the engine this token. -/
def Engine.Presents (e : Engine) (t : String) : Prop := e.req = some t ∨ ∃ refused, some t ∈ e.adminSend refused

theorem Engine.bearer_eq {x : Option String} {t : String} : bearer x = some t ↔ t ≠ "" ∧ x = some t := by
  rw [bearer, Option.filter_eq_some_iff]
  simp [and_comm]

theorem Engine.presents_iff {e : Engine} {t : String} :
    e.Presents t ↔ t ≠ "" ∧ (e.admin = some t ∨ e.token = some t) := by
  constructor
  · rintro (h | ⟨refused, h⟩)
    · exact ⟨(bearer_eq.mp h).1, .inr (bearer_eq.mp h).2⟩
    · rcases List.mem_cons.mp h with h | h
      · obtain ⟨hne, ht⟩ := bearer_eq.mp h.symm
        exact ⟨hne, (Option.or_eq_some_iff.mp ht).imp_right And.right⟩
      · split at h
        · have h := bearer_eq.mp (List.mem_singleton.mp h).symm
          exact ⟨h.1, .inr h.2⟩
        · cases h
  · rintro ⟨hne, h | h⟩
    · refine .inr ⟨false, List.mem_cons.mpr (.inl ?_)⟩
      rw [adminReq, h, Option.some_or]
      exact (bearer_eq.mpr ⟨hne, rfl⟩).symm
    · exact .inl (bearer_eq.mpr ⟨hne, h⟩)

/-! ## A node's credentials -/

section

variable {cfg : NodesConfig} {m : Machine} {members : Members} {node : Node}

/-- A token that is found says something. -/
theorem searchFiles_not_blank {files why : List String} {t : String} (h : (m.searchFiles files why).1 = some t) :
    blank t = false := by
  induction files generalizing why with
  | nil => cases h
  | cons path files ih =>
    unfold Machine.searchFiles at h
    split at h
    · split at h
      · exact ih h
      · rename_i s _ hs
        obtain rfl := Option.some.inj h
        rw [blank_trimText]
        exact Bool.not_eq_true _ ▸ hs
    · exact ih h

theorem envSet_not_blank {k v : String} (h : m.envSet k = some v) : blank v = false := by
  obtain ⟨-, hv⟩ := Option.filter_eq_some_iff.mp h
  exact Bool.not_eq_true' _ ▸ hv

theorem kubeToken_not_blank {c : KubeConfig} {t : String} (h : c.token m = some t) : blank t = false := by
  unfold KubeConfig.token at h
  split at h
  · rename_i v hv
    obtain rfl := Option.some.inj h
    rw [blank_trimText]
    exact envSet_not_blank hv
  · exact searchFiles_not_blank h

/-- The bearer goes nowhere but to an engine here, or to one that the
membership names. -/
def Confined (cfg : NodesConfig) (m : Machine) (members : Members) (node : Node) : Prop :=
  ∀ t, cfg.kubernetes.token m = some t → (engineFor cfg m members node).Presents t →
    m.isThisMachine node.config.engineUrl = true ∨ trimSlashes node.config.engineUrl ∈ members.engines

/-- The token that is configured for a node's engine itself. -/
def ownToken (cfg : NodesConfig) (m : Machine) (node : NodeConfig) : Option String :=
  ((node.apiToken.map trimText).filter (· ≠ "")).or
    ((node.tokenFile.bind fun f => (m.tokenSearch none [f]).1).or (cfg.local.tokenFor m node.engineUrl).1)

/-- An engine outside is given its own token at most. -/
theorem engineToken_outside (h : trimSlashes node.config.engineUrl ∉ members.engines) :
    engineToken cfg m members node.config = ownToken cfg m node.config := by
  unfold engineToken engineTokenSource ownToken
  simp only [if_neg h]
  cases (node.config.apiToken.map trimText).filter (· ≠ "") with
  | some t => rfl
  | none =>
    cases node.config.tokenFile with
    | none => cases hl : (cfg.local.tokenFor m node.config.engineUrl).1 <;> simp [hl]
    | some f => cases hf : (m.tokenSearch none [f]).1 <;> cases hl : (cfg.local.tokenFor m node.config.engineUrl).1 <;>
        simp [hf, hl]

/-- A node's client shows the bearer as its admin credential where no other
admin token is for its engine. -/
theorem admin_iff {t : String} (hb : cfg.kubernetes.token m = some t) :
    (engineFor cfg m members node).admin = some t ↔
      ∀ a, cfg.local.adminTokenFor m node.config.engineUrl = some a → a = t := by
  rw [engineFor, Engine.withAdmin, adminCredential, hb]
  cases ha : cfg.local.adminTokenFor m node.config.engineUrl with
  | none => simp [kubeToken_not_blank hb]
  | some a =>
    rw [Option.some_or]
    constructor
    · rintro h _ ⟨⟩
      exact Option.some.inj (Option.filter_eq_some_iff (p := fun t => !blank t).mp h).1
    · intro h
      obtain rfl := h a rfl
      simp [kubeToken_not_blank hb]

theorem confined_iff : Confined cfg m members node ↔
    m.isThisMachine node.config.engineUrl = true ∨ trimSlashes node.config.engineUrl ∈ members.engines ∨
    ∀ t, cfg.kubernetes.token m = some t →
      (∃ a, cfg.local.adminTokenFor m node.config.engineUrl = some a ∧ a ≠ t) ∧ ownToken cfg m node.config ≠ some t := by
  by_cases hhere : m.isThisMachine node.config.engineUrl = true
  · exact iff_of_true (fun _ _ _ => .inl hhere) (.inl hhere)
  by_cases hmember : trimSlashes node.config.engineUrl ∈ members.engines
  · exact iff_of_true (fun _ _ _ => .inr hmember) (.inr (.inl hmember))
  have hpresents : ∀ t, cfg.kubernetes.token m = some t → ((engineFor cfg m members node).Presents t ↔
      (∀ a, cfg.local.adminTokenFor m node.config.engineUrl = some a → a = t) ∨
        ownToken cfg m node.config = some t) := by
    intro t ht
    rw [Engine.presents_iff, admin_iff ht, ← engineToken_outside hmember]
    exact and_iff_right (ne_empty_of_not_blank (kubeToken_not_blank ht))
  simp only [Confined, hhere, hmember, or_false, false_or, Bool.false_eq_true]
  refine forall_congr' fun t => ⟨fun h ht => ?_, fun h ht hp => ?_⟩
  · have hp := mt (hpresents t ht).mpr (h ht)
    rw [not_or, not_forall] at hp
    obtain ⟨⟨a, ha⟩, hown⟩ := hp
    exact ⟨⟨a, Classical.not_imp.mp ha⟩, hown⟩
  · obtain ⟨⟨a, ha, hne⟩, hown⟩ := h ht
    rcases (hpresents t ht).mp hp with h | h
    · exact hne (h a ha)
    · exact hown h

end

/-- A machine with an apiserver's bearer and no engine token. -/
def bearerOnly : Machine where
  env k := if k = "KUBE_TOKEN" then some "bearer" else none
  readFile _ := .error "no such file"
  holdsIp host := if host = "192.0.2.1" then some false else none

/-- A node as its first heartbeat leaves it. -/
def guest : Node where
  config := { name := "guest", engineUrl := "http://192.0.2.1:9090" }
  status := { NodeStatus.new .registered with healthy := true, lastOk := some 0 }

/-- An engine that registered itself is handed the bearer. -/
theorem not_confined : ¬ ∀ (cfg : NodesConfig) (m : Machine) (members : Members) (fed : FedState)
    (heartbeats : List Announce) (now : SystemTime) (name : String) (node : Node),
    (heartbeats.foldl (fun fed a => fed.registerNode cfg a now) fed).nodes[name]? = some node →
    Confined cfg m members node := by
  intro h
  have hc := h {} bearerOnly {} {} [{ nodeAddr := "192.0.2.1", hostname := "guest" }] 0 "guest" guest
    (by decide +kernel)
  have hp : (engineFor {} bearerOnly {} guest).Presents "bearer" :=
    Engine.presents_iff.mpr ⟨by decide, .inl (by decide +kernel)⟩
  exact absurd (hc "bearer" (by decide +kernel) hp) (by decide +kernel)

end StormStorage
