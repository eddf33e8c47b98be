import StormStorage.Store.Records

/-!
# Records and state are inverse

A record is named by a `RecordKey`, and `FedState.record` is what a state
says of it. `recordsOf` is that reading under the keys' texts
(`recordsOf_text`), and applying records of leaders to any local state gives
a state that says the same, but for the registered nodes this instance
configures itself (`applyRecords_record`).
-/

namespace StormStorage

open KeyMap

inductive RecordKey where
  | volume (name : String)
  | snapshot (name : String)
  | groupSnapshot (name : String)
  | backup (name : String)
  | vmMigration (name : String)
  | node (name : String)
  | orphans
  | staleHeads
deriving DecidableEq

namespace RecordKey

def kind : RecordKey → String
  | volume _ => "volumes"
  | snapshot _ => "snapshots"
  | groupSnapshot _ => "group_snapshots"
  | backup _ => "backups"
  | vmMigration _ => "vm_migrations"
  | node _ => "nodes"
  | orphans => "orphans"
  | staleHeads => "stale_heads"

def text : RecordKey → String
  | volume n => keyOf "volumes" n
  | snapshot n => keyOf "snapshots" n
  | groupSnapshot n => keyOf "group_snapshots" n
  | backup n => keyOf "backups" n
  | vmMigration n => keyOf "vm_migrations" n
  | node n => keyOf "nodes" n
  | orphans => "orphans"
  | staleHeads => "stale_heads"

end RecordKey

/-- The record kinds this version reads. -/
def kinds : List String :=
  ["volumes", "snapshots", "group_snapshots", "backups", "vm_migrations", "nodes", "orphans", "stale_heads"]

def known (k : String) : Bool := (kindName k).1 ∈ kinds

/-! ## Keys -/

theorem splitOnce_append {sep : Char} {xs : List Char} (h : sep ∉ xs) (ys : List Char) :
    splitOnce sep (xs ++ sep :: ys) = some (xs, ys) := by
  induction xs with
  | nil => simp [splitOnce]
  | cons x xs ih =>
    simp only [List.mem_cons, not_or] at h
    rw [List.cons_append, splitOnce, if_neg (Ne.symm h.1), ih h.2]
    rfl

theorem kindName_keyOf {kind : String} (h : '/' ∉ kind.toList) (name : String) :
    kindName (keyOf kind name) = (kind, name) := by
  have ht : (keyOf kind name).toList = kind.toList ++ '/' :: name.toList := by
    simp [keyOf, String.toList_append]
  rw [kindName, ht, splitOnce_append h]
  simp

namespace RecordKey

theorem kindName_text (rk : RecordKey) : (kindName rk.text).1 = rk.kind := by
  cases rk with
  | orphans => decide
  | staleHeads => decide
  | _ => exact congrArg Prod.fst (kindName_keyOf (by decide) _)

theorem known_text (rk : RecordKey) : known rk.text := by
  rw [known, kindName_text]
  cases rk <;> simp [kind, kinds]

theorem under_ne {rk : RecordKey} {kind : String} (h : rk.kind ≠ kind) (hs : '/' ∉ kind.toList)
    (n : String) : under kind n ≠ some rk.text := by
  intro he
  have hk : keyOf kind n = rk.text := Option.some.inj he
  exact h (by rw [← kindName_text, ← hk, kindName_keyOf hs])

theorem keyOf_inj {kind a b : String} (hs : '/' ∉ kind.toList) (h : keyOf kind a = keyOf kind b) : a = b := by
  have := congrArg (fun k => (kindName k).2) h
  simpa only [kindName_keyOf hs] using this

theorem text_inj {rk rk' : RecordKey} (h : rk.text = rk'.text) : rk = rk' := by
  have hk : rk.kind = rk'.kind := by rw [← kindName_text, ← kindName_text, h]
  cases rk <;> cases rk' <;> first
    | rfl
    | (exfalso; revert hk; simp [kind]; done)
    | exact congrArg _ (keyOf_inj (by decide) h)

end RecordKey

/-! ## What a state says of a record -/

/-- The configuration that a list of nodes holds of registered node `n`: the
last under that name. -/
def registeredConfig (n : String) : List (String × Node) → Option NodeConfig
  | [] => none
  | (_, node) :: ns =>
    (registeredConfig n ns).or
      (if registered node ∧ node.config.name = n then some node.config else none)

variable {c : Codecs}

def FedState.record (c : Codecs) (fed : FedState) : RecordKey → Option String
  | .volume n => fed.volumes[n]?.map c.volume.toString
  | .snapshot n => fed.snapshots[n]?.map c.snapshot.toString
  | .groupSnapshot n => fed.groupSnapshots[n]?.map c.groupSnapshot.toString
  | .backup n => fed.backups[n]?.map c.backup.toString
  | .vmMigration n => fed.vmMigrations[n]?.map c.vmMigration.toString
  | .node n => (registeredConfig n fed.nodes.toList).map c.node.toString
  | .orphans => some (c.orphans.toString fed.orphans)
  | .staleHeads => some (c.staleHeads.toString fed.staleHeads)

variable {rk : RecordKey} {kind : String} {β : Type} {g : β → String}

theorem gather_under (hs : '/' ∉ kind.toList) (n : String) (xs : KeyMap β) (m : Records) :
    (gather (under kind) g xs m)[keyOf kind n]? = (xs[n]?.map g).or m[keyOf kind n]? := by
  refine gather_apply (f := under kind) (fun a b k ha hb => ?_) rfl xs m
  exact RecordKey.keyOf_inj hs (Option.some.inj (ha.trans hb.symm))

theorem gather_other (h : rk.kind ≠ kind) (hs : '/' ∉ kind.toList) (xs : KeyMap β) (m : Records) :
    (gather (under kind) g xs m)[rk.text]? = m[rk.text]? :=
  gather_none (RecordKey.under_ne h hs) xs m

theorem insert_other {rk' : RecordKey} (h : rk' ≠ rk) (m : Records) (v : String) :
    (m.insert rk'.text v)[rk.text]? = m[rk.text]? :=
  get_insert_ne _ _ fun he => h (RecordKey.text_inj he)

theorem putNodes_node (n : String) (ns : List (String × Node)) (m : Records) :
    (putNodes c ns m)[keyOf "nodes" n]? =
      ((registeredConfig n ns).map c.node.toString).or m[keyOf "nodes" n]? := by
  induction ns generalizing m with
  | nil => rfl
  | cons p ns ih =>
    obtain ⟨k, node⟩ := p
    rw [putNodes, ih, registeredConfig]
    cases registeredConfig n ns with
    | some nc => rfl
    | none =>
      simp only [Option.map_none, Option.none_or]
      by_cases hr : registered node
      · by_cases hn : node.config.name = n
        · subst hn
          rw [if_pos hr, get_insert_self, if_pos ⟨hr, rfl⟩]
          rfl
        · rw [if_pos hr, if_neg fun h => hn h.2, get_insert_ne]
          · rfl
          · exact fun h => hn (RecordKey.keyOf_inj (by decide) h)
      · rw [if_neg hr, if_neg fun h => hr h.1]
        rfl

theorem putNodes_none {k : String} (h : ∀ n, keyOf "nodes" n ≠ k) (ns : List (String × Node))
    (m : Records) : (putNodes c ns m)[k]? = m[k]? := by
  induction ns generalizing m with
  | nil => rfl
  | cons p ns ih =>
    obtain ⟨_, node⟩ := p
    rw [putNodes, ih]
    split
    · exact get_insert_ne _ _ (h _)
    · rfl

theorem putNodes_other (h : rk.kind ≠ "nodes") (ns : List (String × Node)) (m : Records) :
    (putNodes c ns m)[rk.text]? = m[rk.text]? :=
  putNodes_none (fun n he => RecordKey.under_ne h (by decide) n (congrArg some he)) ns m

/-- `recordsOf` says of a record what the state does. -/
theorem recordsOf_text (fed : FedState) (rk : RecordKey) :
    (recordsOf c fed)[rk.text]? = fed.record c rk := by
  have own {kind : String} (hs : '/' ∉ kind.toList) {n : String} (ht : rk.text = keyOf kind n)
      {β : Type} (g : β → String) (xs : KeyMap β) (m : Records) (hm : m[rk.text]? = none) :
      (gather (under kind) g xs m)[rk.text]? = xs[n]?.map g := by
    rw [ht] at hm ⊢
    rw [gather_under hs, hm, Option.or_none]
  simp only [recordsOf, show "orphans" = RecordKey.orphans.text from rfl,
    show "stale_heads" = RecordKey.staleHeads.text from rfl]
  cases rk with
  | staleHeads => exact get_insert_self ..
  | orphans => rw [insert_other (by simp), get_insert_self]; rfl
  | node n =>
    rw [insert_other (by simp), insert_other (by simp)]
    refine (putNodes_node n _ _).trans ?_
    rw [show keyOf "nodes" n = (RecordKey.node n).text from rfl, gather_other, gather_other, gather_other,
      gather_other, gather_other, get_empty, Option.or_none]
    · rfl
    all_goals first | decide | simp [RecordKey.kind]
  | vmMigration n =>
    rw [insert_other, insert_other, putNodes_other, own (by decide) rfl]
    · rfl
    · rw [gather_other, gather_other, gather_other, gather_other, get_empty]
      all_goals first | decide | simp [RecordKey.kind]
    all_goals simp [RecordKey.kind]
  | backup n =>
    rw [insert_other, insert_other, putNodes_other, gather_other, own (by decide) rfl]
    · rfl
    · rw [gather_other, gather_other, gather_other, get_empty]
      all_goals first | decide | simp [RecordKey.kind]
    all_goals first | decide | simp [RecordKey.kind]
  | groupSnapshot n =>
    rw [insert_other, insert_other, putNodes_other, gather_other, gather_other, own (by decide) rfl]
    · rfl
    · rw [gather_other, gather_other, get_empty]
      all_goals first | decide | simp [RecordKey.kind]
    all_goals first | decide | simp [RecordKey.kind]
  | snapshot n =>
    rw [insert_other, insert_other, putNodes_other, gather_other, gather_other, gather_other,
      own (by decide) rfl]
    · rfl
    · rw [gather_other, get_empty]
      all_goals first | decide | simp [RecordKey.kind]
    all_goals first | decide | simp [RecordKey.kind]
  | volume n =>
    rw [insert_other, insert_other, putNodes_other, gather_other, gather_other, gather_other, gather_other,
      own (by decide) rfl]
    · rfl
    · exact get_empty _
    all_goals first | decide | simp [RecordKey.kind]

/-- Every key of `recordsOf` is a record's. -/
theorem recordsOf_other {k : String} (h : ∀ rk : RecordKey, rk.text ≠ k) (fed : FedState) :
    (recordsOf c fed)[k]? = none := by
  have hu {kind : String} (f : String → RecordKey) (hf : ∀ n, (f n).text = keyOf kind n) (n : String) :
      under kind n ≠ some k :=
    fun he => h (f n) ((hf n).trans (Option.some.inj he))
  simp only [recordsOf, show "orphans" = RecordKey.orphans.text from rfl,
    show "stale_heads" = RecordKey.staleHeads.text from rfl]
  rw [get_insert_ne _ _ (h .staleHeads), get_insert_ne _ _ (h .orphans),
    putNodes_none fun n => h (.node n), gather_none (hu .vmMigration fun _ => rfl),
    gather_none (hu .backup fun _ => rfl), gather_none (hu .groupSnapshot fun _ => rfl),
    gather_none (hu .snapshot fun _ => rfl), gather_none (hu .volume fun _ => rfl), get_empty]

/-! ## Reading records back -/

/-- The text is one that the serializer wrote for this record, and reads back. -/
def Legible (c : Codecs) : RecordKey → String → Prop
  | .volume _, v => ∃ x, c.volume.toString x = v ∧ c.volume.fromStr v = .ok x
  | .snapshot _, v => ∃ x, c.snapshot.toString x = v ∧ c.snapshot.fromStr v = .ok x
  | .groupSnapshot _, v => ∃ x, c.groupSnapshot.toString x = v ∧ c.groupSnapshot.fromStr v = .ok x
  | .backup _, v => ∃ x, c.backup.toString x = v ∧ c.backup.fromStr v = .ok x
  | .vmMigration _, v => ∃ x, c.vmMigration.toString x = v ∧ c.vmMigration.fromStr v = .ok x
  | .node n, v => ∃ x, x.name = n ∧ c.node.toString x = v ∧ c.node.fromStr v = .ok x
  | .orphans, v => ∃ x, c.orphans.toString x = v ∧ c.orphans.fromStr v = .ok x
  | .staleHeads, v => ∃ x, c.staleHeads.toString x = v ∧ c.staleHeads.fromStr v = .ok x

def lastNamed (n : String) : List NodeConfig → Option NodeConfig
  | [] => none
  | nc :: ncs => (lastNamed n ncs).or (if nc.name = n then some nc else none)

theorem lastNamed_concat (n : String) (ncs : List NodeConfig) (nc : NodeConfig) :
    lastNamed n (ncs ++ [nc]) = if nc.name = n then some nc else lastNamed n ncs := by
  induction ncs with
  | nil => simp [lastNamed]
  | cons a ncs ih =>
    rw [List.cons_append, lastNamed, ih, lastNamed]
    split <;> simp

/-- What was read so far says of a record. -/
def readSoFar (c : Codecs) (acc : FedState × List NodeConfig) : RecordKey → Option String
  | .node n => (lastNamed n acc.2).map c.node.toString
  | rk => acc.1.record c rk

/-- One record read: it alone changes. -/
theorem applyRecord_text {rk : RecordKey} {v : String} (h : Legible c rk v)
    (acc : FedState × List NodeConfig) :
    ∃ acc', applyRecord c acc (rk.text, v) = .ok acc' ∧
      ∀ rk', readSoFar c acc' rk' = if rk = rk' then some v else readSoFar c acc rk' := by
  obtain ⟨next, regs⟩ := acc
  cases rk with
  | orphans =>
    obtain ⟨x, rfl, hx⟩ := h
    refine ⟨({ next with orphans := x }, regs), ?_, fun rk' => ?_⟩
    · rw [applyRecord, show kindName RecordKey.orphans.text = ("orphans", "") by decide]
      simp only [hx]
      rfl
    · cases rk' <;> simp [readSoFar, FedState.record]
  | staleHeads =>
    obtain ⟨x, rfl, hx⟩ := h
    refine ⟨({ next with staleHeads := x }, regs), ?_, fun rk' => ?_⟩
    · rw [applyRecord, show kindName RecordKey.staleHeads.text = ("stale_heads", "") by decide]
      simp only [hx]
      rfl
    · cases rk' <;> simp [readSoFar, FedState.record]
  | node n =>
    obtain ⟨x, rfl, rfl, hx⟩ := h
    refine ⟨(next, regs ++ [x]), ?_, fun rk' => ?_⟩
    · rw [applyRecord, show kindName (RecordKey.node x.name).text = _ from kindName_keyOf (by decide) _]
      simp only [hx]
      rfl
    · cases rk' with
      | node m =>
        simp only [readSoFar, lastNamed_concat, RecordKey.node.injEq]
        split <;> rfl
      | _ => simp [readSoFar, FedState.record]
  | volume n =>
    obtain ⟨x, rfl, hx⟩ := h
    refine ⟨({ next with volumes := next.volumes.insert n x }, regs), ?_, fun rk' => ?_⟩
    · rw [applyRecord, show kindName (RecordKey.volume n).text = _ from kindName_keyOf (by decide) _]
      simp only [hx]
      rfl
    · cases rk' with
      | volume m =>
        simp only [readSoFar, FedState.record, get_insert, RecordKey.volume.injEq]
        split <;> rfl
      | _ => simp [readSoFar, FedState.record]
  | snapshot n =>
    obtain ⟨x, rfl, hx⟩ := h
    refine ⟨({ next with snapshots := next.snapshots.insert n x }, regs), ?_, fun rk' => ?_⟩
    · rw [applyRecord, show kindName (RecordKey.snapshot n).text = _ from kindName_keyOf (by decide) _]
      simp only [hx]
      rfl
    · cases rk' with
      | snapshot m =>
        simp only [readSoFar, FedState.record, get_insert, RecordKey.snapshot.injEq]
        split <;> rfl
      | _ => simp [readSoFar, FedState.record]
  | groupSnapshot n =>
    obtain ⟨x, rfl, hx⟩ := h
    refine ⟨({ next with groupSnapshots := next.groupSnapshots.insert n x }, regs), ?_, fun rk' => ?_⟩
    · rw [applyRecord, show kindName (RecordKey.groupSnapshot n).text = _ from kindName_keyOf (by decide) _]
      simp only [hx]
      rfl
    · cases rk' with
      | groupSnapshot m =>
        simp only [readSoFar, FedState.record, get_insert, RecordKey.groupSnapshot.injEq]
        split <;> rfl
      | _ => simp [readSoFar, FedState.record]
  | backup n =>
    obtain ⟨x, rfl, hx⟩ := h
    refine ⟨({ next with backups := next.backups.insert n x }, regs), ?_, fun rk' => ?_⟩
    · rw [applyRecord, show kindName (RecordKey.backup n).text = _ from kindName_keyOf (by decide) _]
      simp only [hx]
      rfl
    · cases rk' with
      | backup m =>
        simp only [readSoFar, FedState.record, get_insert, RecordKey.backup.injEq]
        split <;> rfl
      | _ => simp [readSoFar, FedState.record]
  | vmMigration n =>
    obtain ⟨x, rfl, hx⟩ := h
    refine ⟨({ next with vmMigrations := next.vmMigrations.insert n x }, regs), ?_, fun rk' => ?_⟩
    · rw [applyRecord, show kindName (RecordKey.vmMigration n).text = _ from kindName_keyOf (by decide) _]
      simp only [hx]
      rfl
    · cases rk' with
      | vmMigration m =>
        simp only [readSoFar, FedState.record, get_insert, RecordKey.vmMigration.injEq]
        split <;> rfl
      | _ => simp [readSoFar, FedState.record]

/-- A key of no kind this version knows is passed over. -/
theorem applyRecord_unknown {k : String} (h : known k = false) (v : String)
    (acc : FedState × List NodeConfig) : applyRecord c acc (k, v) = .ok acc := by
  rw [known, kinds] at h
  simp only [List.mem_cons, List.not_mem_nil, or_false, decide_eq_false_iff_not, not_or] at h
  rw [applyRecord]
  generalize kindName k = p at h
  obtain ⟨kind, name⟩ := p
  obtain ⟨next, regs⟩ := acc
  simp only
  split <;> first | rfl | simp at h

/-- The list's records are what is read, and nothing else changes. -/
theorem applyEach_legible {kvs : List (String × String)} (hd : (kvs.map Prod.fst).Nodup)
    (hl : ∀ p ∈ kvs, known p.1 → ∃ rk : RecordKey, rk.text = p.1 ∧ Legible c rk p.2)
    (acc : FedState × List NodeConfig) :
    ∃ acc', applyEach c kvs acc = .ok acc' ∧ ∀ rk : RecordKey,
      (∀ v, (rk.text, v) ∈ kvs → readSoFar c acc' rk = some v) ∧
      (rk.text ∉ kvs.map Prod.fst → readSoFar c acc' rk = readSoFar c acc rk) := by
  induction kvs generalizing acc with
  | nil => exact ⟨acc, rfl, fun rk => ⟨nofun, fun _ => rfl⟩⟩
  | cons p kvs ih =>
    obtain ⟨k, v⟩ := p
    simp only [List.map_cons, List.nodup_cons] at hd
    have hl' := fun p hp => hl p (List.mem_cons_of_mem _ hp)
    by_cases hk : known k
    · obtain ⟨rk₀, rfl, hv⟩ := hl (k, v) (List.mem_cons_self ..) hk
      obtain ⟨acc₁, h₁, hr₁⟩ := applyRecord_text hv acc
      obtain ⟨acc', h', hr'⟩ := ih hd.2 hl' acc₁
      refine ⟨acc', by rw [applyEach, h₁]; exact h', fun rk => ⟨fun w hw => ?_, fun hn => ?_⟩⟩
      · simp only [List.mem_cons, Prod.mk.injEq] at hw
        rcases hw with ⟨he, rfl⟩ | hw
        · obtain rfl := RecordKey.text_inj he
          rw [(hr' rk).2 hd.1, hr₁, if_pos rfl]
        · exact (hr' rk).1 w hw
      · simp only [List.map_cons, List.mem_cons, not_or] at hn
        rw [(hr' rk).2 hn.2, hr₁, if_neg fun he => hn.1 (by rw [he])]
    · obtain ⟨acc', h', hr'⟩ := ih hd.2 hl' acc
      have hu : applyRecord c acc (k, v) = .ok acc := applyRecord_unknown (by simpa using hk) v acc
      refine ⟨acc', by rw [applyEach, hu]; exact h', fun rk => ⟨fun w hw => ?_, fun hn => ?_⟩⟩
      · simp only [List.mem_cons, Prod.mk.injEq] at hw
        rcases hw with ⟨he, rfl⟩ | hw
        · exact absurd (he ▸ RecordKey.known_text rk) hk
        · exact (hr' rk).1 w hw
      · simp only [List.map_cons, List.mem_cons, not_or] at hn
        exact (hr' rk).2 hn.2

/-! ## Registered nodes -/

/-- What a node record becomes when a stored registered node is taken up. -/
def adopted (nc : NodeConfig) : Option Node → Node
  | some n => if registered n then { n with config := nc } else n
  | none => { config := nc, status := NodeStatus.new .registered }

theorem adoptRegistered_get (nodes : KeyMap Node) (nc : NodeConfig) (n : String) :
    (adoptRegistered nodes nc)[n]? = if nc.name = n then some (adopted nc nodes[n]?) else nodes[n]? := by
  rw [adoptRegistered]
  by_cases hn : nc.name = n
  · subst hn
    rw [if_pos rfl]
    cases h : nodes[nc.name]? with
    | none => exact get_insert_self ..
    | some node =>
      simp only [adopted]
      split
      · exact get_insert_self ..
      · exact h
  · rw [if_neg hn]
    split
    · split
      · exact get_insert_ne _ _ hn
      · rfl
    · exact get_insert_ne _ _ hn

theorem adopted_adopted (nc nc' : NodeConfig) (o : Option Node) :
    adopted nc' (some (adopted nc o)) = adopted nc' o := by
  cases o with
  | none => rfl
  | some n =>
    by_cases h : registered n
    · have h' : registered { n with config := nc } := h
      simp only [adopted, h, h', ↓reduceIte]
    · simp only [adopted, h, Bool.false_eq_true, ↓reduceIte]

theorem adopted_config {nc : NodeConfig} {o : Option Node} (h : registered (adopted nc o)) :
    (adopted nc o).config = nc := by
  cases o with
  | none => rfl
  | some n =>
    by_cases hr : registered n
    · simp only [adopted, hr, ↓reduceIte]
    · simp only [adopted, hr, Bool.false_eq_true, ↓reduceIte] at h

theorem foldl_adoptRegistered_get (ncs : List NodeConfig) (nodes : KeyMap Node) (n : String) :
    (ncs.foldl adoptRegistered nodes)[n]? =
      match lastNamed n ncs with
      | some nc => some (adopted nc nodes[n]?)
      | none => nodes[n]? := by
  induction ncs generalizing nodes with
  | nil => rfl
  | cons nc ncs ih =>
    rw [List.foldl_cons, ih, lastNamed, adoptRegistered_get]
    cases lastNamed n ncs with
    | some nc' =>
      simp only [Option.some_or]
      split
      · rw [adopted_adopted]
      · rfl
    | none =>
      simp only [Option.none_or]
      split <;> rfl

theorem lastNamed_name {n : String} {ncs : List NodeConfig} {nc : NodeConfig}
    (h : lastNamed n ncs = some nc) : nc.name = n := by
  induction ncs with
  | nil => cases h
  | cons a ncs ih =>
    rw [lastNamed] at h
    cases hl : lastNamed n ncs with
    | some b =>
      rw [hl, Option.some_or] at h
      exact ih (hl.trans h)
    | none =>
      rw [hl, Option.none_or] at h
      split at h
      · rename_i hn
        rw [← Option.some.inj h, hn]
      · cases h

theorem contains_name (n : String) (ncs : List NodeConfig) :
    (ncs.map (·.name)).contains n = (lastNamed n ncs).isSome := by
  induction ncs with
  | nil => rfl
  | cons nc ncs ih =>
    rw [List.map_cons, List.contains_cons, ih, lastNamed, Option.isSome_or, Bool.or_comm]
    congr 1
    by_cases h : nc.name = n
    · simp [h]
    · simp [h, Ne.symm h]

/-- Where registered nodes are filed under their names, a node's record is its
own configuration. -/
theorem registeredConfig_of_filed {ns : List (String × Node)} (hd : (ns.map Prod.fst).Nodup)
    (hf : ∀ p ∈ ns, registered p.2 → p.2.config.name = p.1) (n : String) :
    (∀ node, (n, node) ∈ ns → registered node → registeredConfig n ns = some node.config) ∧
      ((∀ node, (n, node) ∈ ns → ¬ registered node) → registeredConfig n ns = none) := by
  induction ns with
  | nil => exact ⟨nofun, fun _ => rfl⟩
  | cons p ns ih =>
    obtain ⟨k, node₀⟩ := p
    simp only [List.map_cons, List.nodup_cons] at hd
    have hf' := fun p hp => hf p (List.mem_cons_of_mem _ hp)
    have hf₀ := hf (k, node₀) (List.mem_cons_self ..)
    obtain ⟨ih₁, ih₂⟩ := ih hd.2 hf'
    refine ⟨fun node hm hr => ?_, fun hno => ?_⟩
    · rw [registeredConfig]
      rcases List.mem_cons.mp hm with he | hm
      · obtain ⟨rfl, rfl⟩ : n = k ∧ node = node₀ := by simpa using he
        have : registeredConfig n ns = none :=
          ih₂ fun node' hm' _ => hd.1 (List.mem_map.mpr ⟨_, hm', rfl⟩)
        rw [this, if_pos ⟨hr, hf₀ hr⟩, Option.none_or]
      · rw [ih₁ node hm hr, Option.some_or]
    · rw [registeredConfig, ih₂ fun node hm => hno node (List.mem_cons_of_mem _ hm), Option.none_or, if_neg]
      rintro ⟨hr, hn⟩
      exact hno node₀ (by rw [← hn, hf₀ hr]; exact List.mem_cons_self ..) hr

/-! ## What leaders wrote -/

/-- Every record of the state is read back as it was written. -/
structure Codecs.ReadsBack (c : Codecs) (fed : FedState) : Prop where
  volumes : ∀ (n : String) (v : DistVolume), fed.volumes[n]? = some v →
    c.volume.fromStr (c.volume.toString v) = .ok v
  snapshots : ∀ (n : String) (v : Snapshot), fed.snapshots[n]? = some v →
    c.snapshot.fromStr (c.snapshot.toString v) = .ok v
  groupSnapshots : ∀ (n : String) (v : GroupSnapshot), fed.groupSnapshots[n]? = some v →
    c.groupSnapshot.fromStr (c.groupSnapshot.toString v) = .ok v
  backups : ∀ (n : String) (v : Backup), fed.backups[n]? = some v →
    c.backup.fromStr (c.backup.toString v) = .ok v
  vmMigrations : ∀ (n : String) (v : VmMigration), fed.vmMigrations[n]? = some v →
    c.vmMigration.fromStr (c.vmMigration.toString v) = .ok v
  nodes : ∀ (n : String) (v : Node), fed.nodes[n]? = some v → registered v →
    c.node.fromStr (c.node.toString v.config) = .ok v.config
  orphans : c.orphans.fromStr (c.orphans.toString fed.orphans) = .ok fed.orphans
  staleHeads : c.staleHeads.fromStr (c.staleHeads.toString fed.staleHeads) = .ok fed.staleHeads

/-- Under the keys that this version knows, leaders of this version wrote:
each from a state of its own. -/
def FromLeaders (c : Codecs) (records : Records) : Prop :=
  ∀ k v : String, records[k]? = some v → known k →
    ∃ fed, c.ReadsBack fed ∧ (recordsOf c fed)[k]? = some v

theorem registeredConfig_mem {n : String} {ns : List (String × Node)} {nc : NodeConfig}
    (h : registeredConfig n ns = some nc) :
    ∃ p ∈ ns, registered p.2 ∧ p.2.config = nc ∧ nc.name = n := by
  induction ns with
  | nil => cases h
  | cons p ns ih =>
    obtain ⟨k, node⟩ := p
    rw [registeredConfig] at h
    cases hr : registeredConfig n ns with
    | some b =>
      rw [hr, Option.some_or] at h
      obtain ⟨q, hq, hq'⟩ := ih (hr.trans h)
      exact ⟨q, List.mem_cons_of_mem _ hq, hq'⟩
    | none =>
      rw [hr, Option.none_or] at h
      split at h
      · rename_i hn
        obtain rfl := Option.some.inj h
        exact ⟨_, List.mem_cons_self .., hn.1, rfl, hn.2⟩
      · cases h

theorem Codecs.ReadsBack.legible {fed : FedState} (h : c.ReadsBack fed) {rk : RecordKey} {v : String}
    (hv : fed.record c rk = some v) : Legible c rk v := by
  cases rk with
  | orphans => obtain rfl := Option.some.inj hv; exact ⟨_, rfl, h.orphans⟩
  | staleHeads => obtain rfl := Option.some.inj hv; exact ⟨_, rfl, h.staleHeads⟩
  | node n =>
    obtain ⟨nc, hn, rfl⟩ := Option.map_eq_some_iff.mp hv
    obtain ⟨p, hp, hr, rfl, hn⟩ := registeredConfig_mem hn
    exact ⟨_, hn, rfl, h.nodes p.1 p.2 (mem_toList.mp hp) hr⟩
  | volume n => obtain ⟨x, hx, rfl⟩ := Option.map_eq_some_iff.mp hv; exact ⟨x, rfl, h.volumes n x hx⟩
  | snapshot n => obtain ⟨x, hx, rfl⟩ := Option.map_eq_some_iff.mp hv; exact ⟨x, rfl, h.snapshots n x hx⟩
  | groupSnapshot n =>
    obtain ⟨x, hx, rfl⟩ := Option.map_eq_some_iff.mp hv; exact ⟨x, rfl, h.groupSnapshots n x hx⟩
  | backup n => obtain ⟨x, hx, rfl⟩ := Option.map_eq_some_iff.mp hv; exact ⟨x, rfl, h.backups n x hx⟩
  | vmMigration n =>
    obtain ⟨x, hx, rfl⟩ := Option.map_eq_some_iff.mp hv; exact ⟨x, rfl, h.vmMigrations n x hx⟩

theorem FromLeaders.legible {records : Records} (h : FromLeaders c records) {k v : String}
    (hv : records[k]? = some v) (hk : known k) : ∃ rk : RecordKey, rk.text = k ∧ Legible c rk v := by
  obtain ⟨fed, hb, hf⟩ := h k v hv hk
  by_cases hr : ∃ rk : RecordKey, rk.text = k
  · obtain ⟨rk, rfl⟩ := hr
    rw [recordsOf_text] at hf
    exact ⟨rk, rfl, hb.legible hf⟩
  · rw [recordsOf_other (fun rk he => hr ⟨rk, he⟩)] at hf
    cases hf

/-- This instance configures node `n` itself. -/
def configuresItself (fed : FedState) (n : String) : Bool := (fed.nodes[n]?.map (!registered ·)).getD false

/-- What an instance's state says after it took up `records`: each record as it
stands, but for the registered nodes it configures itself; orphans and stale
heads are none unless recorded. -/
def takenUp (c : Codecs) (fed : FedState) (records : Records) : RecordKey → Option String
  | .node n => if configuresItself fed n then none else records[(RecordKey.node n).text]?
  | .orphans => some (records[RecordKey.orphans.text]?.getD (c.orphans.toString []))
  | .staleHeads => some (records[RecordKey.staleHeads.text]?.getD (c.staleHeads.toString []))
  | rk => records[rk.text]?

/-- What a name stands for after `applyRecords`. -/
theorem kept_get (fed : FedState) (regs : List NodeConfig) (m : String) :
    (regs.foldl adoptRegistered (fed.nodes.filter fun n node =>
      !registered node || (regs.map (·.name)).contains n))[m]? =
      match lastNamed m regs with
      | some nc => some (adopted nc fed.nodes[m]?)
      | none => fed.nodes[m]?.filter (!registered ·) := by
  rw [foldl_adoptRegistered_get, Std.ExtTreeMap.getElem?_filter', contains_name]
  cases lastNamed m regs with
  | none => simp
  | some nc => cases fed.nodes[m]? <;> simp [Option.filter]

/-- The nodes after `applyRecords`: a registered one is filed under its name,
with the configuration that was read. -/
theorem registeredConfig_kept (fed : FedState) (regs : List NodeConfig) (n : String) :
    registeredConfig n (regs.foldl adoptRegistered (fed.nodes.filter fun n node =>
      !registered node || (regs.map (·.name)).contains n)).toList =
      if configuresItself fed n then none else lastNamed n regs := by
  -- a registered node that is kept was read, so it is filed under its own name
  have filed : ∀ p ∈ (regs.foldl adoptRegistered (fed.nodes.filter fun n node =>
      !registered node || (regs.map (·.name)).contains n)).toList,
      registered p.2 → p.2.config.name = p.1 := by
    rintro ⟨m, node⟩ hp hr
    have hm := (kept_get fed regs m).symm.trans (mem_toList.mp hp)
    cases hl : lastNamed m regs with
    | none =>
      rw [hl] at hm
      have := (Option.filter_eq_some_iff.mp hm).2
      simp [hr] at this
    | some nc =>
      rw [hl] at hm
      obtain rfl := Option.some.inj hm
      exact (congrArg _ (adopted_config hr)).trans (lastNamed_name hl)
  have hd := nodup_toList (regs.foldl adoptRegistered (fed.nodes.filter fun n node =>
    !registered node || (regs.map (·.name)).contains n))
  obtain ⟨hsome, hnone⟩ := registeredConfig_of_filed hd filed n
  simp only [mem_toList, kept_get] at hsome hnone
  cases hl : lastNamed n regs with
  | none =>
    rw [hl] at hnone
    rw [hnone fun node hnode => by simpa using (Option.filter_eq_some_iff.mp hnode).2]
    split <;> rfl
  | some nc =>
    rw [hl] at hsome hnone
    cases ho : fed.nodes[n]? with
    | none =>
      rw [ho] at hsome
      rw [configuresItself, ho]
      exact hsome _ rfl rfl
    | some old =>
      rw [ho] at hsome hnone
      rw [configuresItself, ho]
      cases hr : registered old with
      | true =>
        have := hsome (adopted nc (some old)) rfl (by rw [adopted, if_pos hr]; exact hr)
        rw [this, adopted, if_pos hr]
        simp [hr]
      | false =>
        refine (hnone fun node hnode => ?_).trans (by simp [hr])
        obtain rfl := Option.some.inj hnode
        rw [adopted, hr]
        simp [hr]

/-- Records of leaders are always taken up. -/
theorem applyRecords_record {records : Records} (h : FromLeaders c records) (fed : FedState) :
    ∃ fed', applyRecords c fed records = .ok fed' ∧ ∀ rk, fed'.record c rk = takenUp c fed records rk := by
  obtain ⟨acc, hacc, hread⟩ := applyEach_legible (c := c) (nodup_toList records)
    (fun p hp hk => h.legible (mem_toList.mp hp) hk) ({}, [])
  -- each key of `records` reads as it stands, and the rest as in an empty state
  have read (rk : RecordKey) : readSoFar c acc rk = records[rk.text]?.or (readSoFar c ({}, []) rk) := by
    cases hr : records[rk.text]? with
    | some v => exact (hread rk).1 v (mem_toList.mpr hr)
    | none =>
      refine (hread rk).2 fun hm => ?_
      obtain ⟨⟨_, v⟩, hp, rfl⟩ := List.mem_map.mp hm
      rw [mem_toList.mp hp] at hr
      cases hr
  refine ⟨_, by rw [applyRecords, hacc]; rfl, fun rk => ?_⟩
  cases rk with
  | node n =>
    have := read (.node n)
    simp only [readSoFar, lastNamed, Option.map_none, Option.or_none] at this
    rw [takenUp, ← this, FedState.record, registeredConfig_kept]
    split <;> rfl
  | orphans =>
    refine (read .orphans).trans ?_
    simp only [takenUp, readSoFar, FedState.record]
    cases records[RecordKey.orphans.text]? <;> rfl
  | staleHeads =>
    refine (read .staleHeads).trans ?_
    simp only [takenUp, readSoFar, FedState.record]
    cases records[RecordKey.staleHeads.text]? <;> rfl
  | volume n => exact (read (.volume n)).trans (by simp [readSoFar, FedState.record, takenUp])
  | snapshot n => exact (read (.snapshot n)).trans (by simp [readSoFar, FedState.record, takenUp])
  | groupSnapshot n => exact (read (.groupSnapshot n)).trans (by simp [readSoFar, FedState.record, takenUp])
  | backup n => exact (read (.backup n)).trans (by simp [readSoFar, FedState.record, takenUp])
  | vmMigration n => exact (read (.vmMigration n)).trans (by simp [readSoFar, FedState.record, takenUp])

/-! ## What a sync sends -/

theorem mem_diff_put {old new : Records} {k v : String} :
    Edit.put k v ∈ diff old new ↔ new[k]? = some v ∧ old[k]? ≠ some v := by
  simp [diff]

theorem mem_diff_delete {old new : Records} {k : String} :
    Edit.delete k ∈ diff old new ↔ old[k]?.isSome ∧ new[k]? = none := by
  simp only [diff, List.mem_append, List.mem_map, List.mem_filter, reduceCtorEq, and_false, exists_false,
    false_or, Edit.delete.injEq, exists_eq_right, mem_keys, contains_eq, Bool.not_eq_true',
    Option.isSome_eq_false_iff, Option.isNone_iff_eq_none]

/-- A key is sent exactly when it reads differently. -/
theorem mem_diff_key {old new : Records} {k : String} :
    k ∈ (diff old new).map Edit.key ↔ new[k]? ≠ old[k]? := by
  refine ⟨fun h => ?_, fun h => ?_⟩
  · obtain ⟨e, he, rfl⟩ := List.mem_map.mp h
    cases e with
    | put k v =>
      obtain ⟨hn, ho⟩ := mem_diff_put.mp he
      exact fun heq => ho (heq ▸ hn)
    | delete k =>
      obtain ⟨ho, hn⟩ := mem_diff_delete.mp he
      exact fun heq => Option.isSome_iff_ne_none.mp ho (heq.symm.trans hn)
  · cases hn : new[k]? with
    | some v => exact List.mem_map.mpr ⟨_, mem_diff_put.mpr ⟨hn, fun ho => h (hn.trans ho.symm)⟩, rfl⟩
    | none =>
      refine List.mem_map.mpr ⟨_, mem_diff_delete.mpr ⟨?_, hn⟩, rfl⟩
      rw [Option.isSome_iff_ne_none]
      exact fun ho => h (hn.trans ho.symm)

theorem nodup_diff (old new : Records) : ((diff old new).map Edit.key).Nodup := by
  rw [diff, List.map_append, List.map_map, List.map_map, List.nodup_append]
  refine ⟨?_, ?_, ?_⟩
  · exact (nodup_toList new).sublist (List.filter_sublist.map _)
  · have hk : old.keys.Nodup := by
      rw [← Std.ExtTreeMap.map_fst_toList_eq_keys]
      exact nodup_toList old
    have hid : (Edit.key ∘ (Edit.delete : String → Op)) = id := rfl
    rw [hid, List.map_id]
    exact hk.sublist List.filter_sublist
  · -- a put is of a key of `new`, a delete of one it has not
    rintro a ha b hb rfl
    obtain ⟨⟨_, v⟩, hp, rfl⟩ := List.mem_map.mp ha
    obtain ⟨k, hk, he⟩ := List.mem_map.mp hb
    have hv := mem_toList.mp (List.mem_filter.mp hp).1
    have hn := (List.mem_filter.mp hk).2
    obtain rfl : k = _ := he
    rw [contains_eq, hv] at hn
    cases hn

/-- The edits of a diff put `new` where it differs from `old`, and leave the rest. -/
theorem patch_diff (old new : Records) (r : Reading String) (k : String) :
    patch (diff old new) r k = if new[k]? = old[k]? then r k else new[k]? := by
  by_cases h : new[k]? = old[k]?
  · rw [if_pos h, patch_of_notMem fun hm => mem_diff_key.mp hm h]
  · obtain ⟨e, he, rfl⟩ := List.mem_map.mp (mem_diff_key.mpr h)
    rw [if_neg h, patch_of_mem (nodup_diff old new) he]
    cases e with
    | put k v => exact (mem_diff_put.mp he).1.symm
    | delete k => exact (mem_diff_delete.mp he).2.symm

theorem diff_eq_nil {old new : Records} : diff old new = [] ↔ old = new := by
  refine ⟨fun h => KeyMap.ext fun k => ?_, ?_⟩
  · by_contra hne
    have := mem_diff_key.mpr fun he => hne he.symm
    rw [h] at this
    cases this
  · rintro rfl
    refine List.eq_nil_iff_forall_not_mem.mpr fun e he => ?_
    exact mem_diff_key.mp (List.mem_map_of_mem he) rfl

end StormStorage
