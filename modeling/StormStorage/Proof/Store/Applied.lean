import StormStorage.Proof.Store.Records

/-!
# All of the records, or nothing

`apply_records` reads every record before it changes the state, so a record
that it cannot read leaves the state as it was.

* `lastRead_ofName`: the record that a name has;
* `applyRecord_reads`, `applyEach_reads`: what one record, and all of them,
  say of each kind;
* `applyRecordsTo_all_or_nothing`: the state is left as it was, or holds what
  the records say.
-/

namespace StormStorage

open KeyMap

variable {c : Codecs}

/-! ## What records say -/

/-- A record that reads: of a kind that this version does not know, or with a
text of its kind. -/
def wellFormed (c : Codecs) (kv : String × String) : Bool :=
  match (kindName kv.1).1 with
  | "volumes" => (c.volume.fromStr kv.2).isOk
  | "snapshots" => (c.snapshot.fromStr kv.2).isOk
  | "group_snapshots" => (c.groupSnapshot.fromStr kv.2).isOk
  | "backups" => (c.backup.fromStr kv.2).isOk
  | "vm_migrations" => (c.vmMigration.fromStr kv.2).isOk
  | "nodes" => (c.node.fromStr kv.2).isOk
  | "orphans" => (c.orphans.fromStr kv.2).isOk
  | "stale_heads" => (c.staleHeads.fromStr kv.2).isOk
  | _ => true

/-- The last that `f` reads in the list. -/
def lastRead {α β : Type} (f : β → Option α) : List β → Option α
  | [] => none
  | x :: xs => (lastRead f xs).or (f x)

/-- What a record says, where it is of the kind. -/
def ofKind {α : Type} (codec : Codec α) (kind : String) (kv : String × String) : Option α :=
  if (kindName kv.1).1 = kind then (codec.fromStr kv.2).toOption else none

/-- What a record says, where it is the one of the kind and name. -/
def ofName {α : Type} (codec : Codec α) (kind name : String) (kv : String × String) : Option α :=
  if (kindName kv.1).2 = name then ofKind codec kind kv else none

theorem lastRead_eq_none {α β : Type} {f : β → Option α} {xs : List β} (h : ∀ x ∈ xs, f x = none) :
    lastRead f xs = none := by
  induction xs with
  | nil => rfl
  | cons x xs ih =>
    rw [lastRead, ih fun y hy => h y (List.mem_cons_of_mem _ hy), h x (List.mem_cons_self ..)]
    rfl

theorem lastRead_eq_of_mem {α β : Type} {f : β → Option α} {x : β} {xs : List β} (hm : x ∈ xs)
    (h : ∀ y ∈ xs, y ≠ x → f y = none) : lastRead f xs = f x := by
  induction xs with
  | nil => cases hm
  | cons y xs ih =>
    have h' := fun z hz => h z (List.mem_cons_of_mem _ hz)
    rw [lastRead]
    by_cases hx : x ∈ xs
    · rw [ih hx h']
      by_cases hy : y = x
      · rw [hy, Option.or_self]
      · rw [h y (List.mem_cons_self ..) hy, Option.or_none]
    · obtain rfl := (List.mem_cons.mp hm).resolve_right hx
      rw [lastRead_eq_none fun z hz => h' z hz fun he => hx (he ▸ hz), Option.none_or]

theorem eq_of_splitOnce {sep : Char} {xs a b : List Char} (h : splitOnce sep xs = some (a, b)) :
    xs = a ++ sep :: b := by
  induction xs generalizing a with
  | nil => cases h
  | cons x xs ih =>
    rw [splitOnce] at h
    split at h
    · rename_i hx
      cases h
      rw [hx, List.nil_append]
    · obtain ⟨⟨a', b'⟩, hs, he⟩ := Option.map_eq_some_iff.mp h
      cases he
      rw [ih hs, List.cons_append]

theorem eq_keyOf {k name : String} (h : (kindName k).2 = name) (hn : name ≠ "") : k = keyOf (kindName k).1 name := by
  subst h
  revert hn
  unfold kindName
  cases hs : splitOnce '/' k.toList with
  | none => exact fun hn => absurd rfl hn
  | some p =>
    intro _
    apply String.toList_inj.mp
    rw [eq_of_splitOnce hs]
    simp [keyOf, String.toList_append]

/-- A name that is not empty has one record of each kind. -/
theorem lastRead_ofName {α : Type} (codec : Codec α) {kind n : String} (hs : '/' ∉ kind.toList) (hn : n ≠ "")
    (records : Records) :
    lastRead (ofName codec kind n) records.toList =
      records[keyOf kind n]?.bind fun v => (codec.fromStr v).toOption := by
  have hkey {kv : String × String} (hk : kv.1 ≠ keyOf kind n) : ofName codec kind n kv = none := by
    unfold ofName ofKind
    split
    · rename_i h2
      exact if_neg fun h1 => hk (by rw [eq_keyOf h2 hn, h1])
    · rfl
  cases hr : records[keyOf kind n]? with
  | none =>
    refine lastRead_eq_none fun kv hkv => hkey fun he => ?_
    rw [← he, mem_toList.mp hkv] at hr
    cases hr
  | some v =>
    rw [lastRead_eq_of_mem (mem_toList.mpr hr) fun kv hkv hne => hkey fun he => hne ?_]
    · simp [ofName, ofKind, kindName_keyOf hs]
    · have := (mem_toList.mp hkv).symm.trans (he ▸ hr)
      exact Prod.ext he (Option.some.inj this)

/-- What the records add to what was read before. -/
structure Adds (c : Codecs) (kvs : List (String × String)) (acc acc' : FedState × List NodeConfig) : Prop where
  volumes (n : String) : acc'.1.volumes[n]? = (lastRead (ofName c.volume "volumes" n) kvs).or acc.1.volumes[n]?
  snapshots (n : String) :
    acc'.1.snapshots[n]? = (lastRead (ofName c.snapshot "snapshots" n) kvs).or acc.1.snapshots[n]?
  groupSnapshots (n : String) :
    acc'.1.groupSnapshots[n]? = (lastRead (ofName c.groupSnapshot "group_snapshots" n) kvs).or acc.1.groupSnapshots[n]?
  backups (n : String) : acc'.1.backups[n]? = (lastRead (ofName c.backup "backups" n) kvs).or acc.1.backups[n]?
  vmMigrations (n : String) :
    acc'.1.vmMigrations[n]? = (lastRead (ofName c.vmMigration "vm_migrations" n) kvs).or acc.1.vmMigrations[n]?
  orphans : acc'.1.orphans = (lastRead (ofKind c.orphans "orphans") kvs).getD acc.1.orphans
  staleHeads : acc'.1.staleHeads = (lastRead (ofKind c.staleHeads "stale_heads") kvs).getD acc.1.staleHeads
  nodes : acc'.2 = acc.2 ++ kvs.filterMap (ofKind c.node "nodes")

theorem isOk_iff {α : Type} {x : Except String α} : x.isOk ↔ ∃ a, x = .ok a := by
  cases x <;> simp [Except.isOk, Except.toBool]

theorem Adds.unknown {kv : String × String} (h : known kv.1 = false) (acc : FedState × List NodeConfig) :
    Adds c [kv] acc acc := by
  simp only [known, kinds, List.mem_cons, List.not_mem_nil, or_false, decide_eq_false_iff_not, not_or] at h
  constructor <;> simp [lastRead, ofName, ofKind, h]

/-- A record that reads adds what it says, and nothing else. -/
theorem applyRecord_reads {kv : String × String} (h : wellFormed c kv) (acc : FedState × List NodeConfig) :
    ∃ acc', applyRecord c acc kv = .ok acc' ∧ Adds c [kv] acc acc' := by
  obtain ⟨k, v⟩ := kv
  cases hn : known k with
  | false => exact ⟨acc, applyRecord_unknown hn v acc, .unknown hn acc⟩
  | true =>
    obtain ⟨next, regs⟩ := acc
    simp only [known, kinds, List.mem_cons, List.not_mem_nil, or_false, decide_eq_true_eq] at hn
    unfold wellFormed at h
    simp only at h
    simp only [applyRecord]
    -- one kind each: the text reads, and what the state holds of the kind is overwritten
    rcases hn with hk | hk | hk | hk | hk | hk | hk | hk
    all_goals
      rw [hk] at h ⊢
      obtain ⟨x, hx⟩ := isOk_iff.mp h
      simp only [hx]
      refine ⟨_, rfl, ?_⟩
      constructor <;> simp [lastRead, ofName, ofKind, hk, hx, get_insert, Except.toOption]
      try (intro n; split <;> rfl)

theorem lastRead_append {α β : Type} (f : β → Option α) (xs ys : List β) :
    lastRead f (xs ++ ys) = (lastRead f ys).or (lastRead f xs) := by
  induction xs with
  | nil => simp [lastRead]
  | cons x xs ih => rw [List.cons_append, lastRead, ih, lastRead, Option.or_assoc]

theorem Adds.append {xs ys : List (String × String)} {acc acc₁ acc₂ : FedState × List NodeConfig}
    (h : Adds c xs acc acc₁) (h' : Adds c ys acc₁ acc₂) : Adds c (xs ++ ys) acc acc₂ := by
  have getD {α : Type} (a b : Option α) (d : α) : a.getD (b.getD d) = (a.or b).getD d := by cases a <;> rfl
  constructor
  · intro n; rw [h'.volumes, h.volumes, lastRead_append, Option.or_assoc]
  · intro n; rw [h'.snapshots, h.snapshots, lastRead_append, Option.or_assoc]
  · intro n; rw [h'.groupSnapshots, h.groupSnapshots, lastRead_append, Option.or_assoc]
  · intro n; rw [h'.backups, h.backups, lastRead_append, Option.or_assoc]
  · intro n; rw [h'.vmMigrations, h.vmMigrations, lastRead_append, Option.or_assoc]
  · rw [h'.orphans, h.orphans, lastRead_append, getD]
  · rw [h'.staleHeads, h.staleHeads, lastRead_append, getD]
  · rw [h'.nodes, h.nodes, List.filterMap_append, List.append_assoc]

/-- Records that all read add what they say, the last of each name. -/
theorem applyEach_reads {kvs : List (String × String)} (h : ∀ kv ∈ kvs, wellFormed c kv)
    (acc : FedState × List NodeConfig) : ∃ acc', applyEach c kvs acc = .ok acc' ∧ Adds c kvs acc acc' := by
  induction kvs generalizing acc with
  | nil => exact ⟨acc, rfl, by constructor <;> simp [lastRead]⟩
  | cons kv kvs ih =>
    obtain ⟨acc₁, h₁, hr₁⟩ := applyRecord_reads (h kv (List.mem_cons_self ..)) acc
    obtain ⟨acc₂, h₂, hr₂⟩ := ih (fun kv hkv => h kv (List.mem_cons_of_mem _ hkv)) acc₁
    exact ⟨acc₂, by rw [applyEach, h₁]; exact h₂, hr₁.append hr₂⟩

theorem applyRecord_malformed {kv : String × String} (h : wellFormed c kv = false) (acc : FedState × List NodeConfig) :
    ∃ e : String, applyRecord c acc kv = .error s!"store key {kv.1}: {e}" := by
  obtain ⟨k, v⟩ := kv
  obtain ⟨next, regs⟩ := acc
  have hfail {α : Type} {x : Except String α} (h : x.isOk = false) : ∃ e, x = .error e := by
    cases x with
    | error e => exact ⟨e, rfl⟩
    | ok a => cases h
  unfold wellFormed at h
  simp only [applyRecord]
  simp only at h
  split at h
  case h_9 => cases h
  all_goals
    rename_i hk
    obtain ⟨e, he⟩ := hfail h
    simp only [hk, he]
    exact ⟨e, rfl⟩

/-- A record that does not read is named. -/
theorem applyEach_malformed {kvs : List (String × String)} (h : ∃ kv ∈ kvs, wellFormed c kv = false)
    (acc : FedState × List NodeConfig) :
    ∃ kv ∈ kvs, wellFormed c kv = false ∧ ∃ e : String, applyEach c kvs acc = .error s!"store key {kv.1}: {e}" := by
  induction kvs generalizing acc with
  | nil => simp at h
  | cons kv kvs ih =>
    cases hw : wellFormed c kv with
    | false =>
      obtain ⟨e, he⟩ := applyRecord_malformed hw acc
      exact ⟨kv, List.mem_cons_self .., hw, e, by rw [applyEach, he]; rfl⟩
    | true =>
      obtain ⟨acc₁, h₁, -⟩ := applyRecord_reads hw acc
      have h' : ∃ kv ∈ kvs, wellFormed c kv = false := by
        obtain ⟨kv', hm, hf⟩ := h
        rcases List.mem_cons.mp hm with rfl | hm
        · rw [hw] at hf; cases hf
        · exact ⟨kv', hm, hf⟩
      obtain ⟨kv', hm, hf, e, he⟩ := ih h' acc₁
      exact ⟨kv', List.mem_cons_of_mem _ hm, hf, e, by rw [applyEach, h₁]; exact he⟩

/-! ## The state after -/

def recordedNodes (c : Codecs) (records : Records) : List NodeConfig :=
  records.toList.filterMap (ofKind c.node "nodes")

/-- The state holds what the records say; a node of this instance's own stands
as it did, and the registered nodes are those of the records. -/
structure Applied (c : Codecs) (fed : FedState) (records : Records) (fed' : FedState) : Prop where
  volumes (n : String) : fed'.volumes[n]? = lastRead (ofName c.volume "volumes" n) records.toList
  snapshots (n : String) : fed'.snapshots[n]? = lastRead (ofName c.snapshot "snapshots" n) records.toList
  groupSnapshots (n : String) :
    fed'.groupSnapshots[n]? = lastRead (ofName c.groupSnapshot "group_snapshots" n) records.toList
  backups (n : String) : fed'.backups[n]? = lastRead (ofName c.backup "backups" n) records.toList
  vmMigrations (n : String) : fed'.vmMigrations[n]? = lastRead (ofName c.vmMigration "vm_migrations" n) records.toList
  orphans : fed'.orphans = (lastRead (ofKind c.orphans "orphans") records.toList).getD []
  staleHeads : fed'.staleHeads = (lastRead (ofKind c.staleHeads "stale_heads") records.toList).getD []
  revision : fed'.revision = fed.revision
  ownNodes (n : String) (node : Node) : registered node = false → (fed'.nodes[n]? = some node ↔ fed.nodes[n]? = some node)
  registeredNodes (n : String) : (∃ node, fed'.nodes[n]? = some node ∧ registered node) ↔
    (∃ nc ∈ recordedNodes c records, nc.name = n) ∧ ∀ node, fed.nodes[n]? = some node → registered node
  nodeConfig (n : String) (node : Node) : fed'.nodes[n]? = some node → registered node →
    lastNamed n (recordedNodes c records) = some node.config
  nodeStatus (n : String) (node : Node) : fed'.nodes[n]? = some node →
    node.status = ((fed.nodes[n]?).map (·.status)).getD (.new .registered)

theorem lastNamed_isSome {n : String} {ncs : List NodeConfig} :
    (lastNamed n ncs).isSome ↔ ∃ nc ∈ ncs, nc.name = n := by
  rw [← contains_name]
  simp

theorem registered_adopted (nc : NodeConfig) (o : Option Node) :
    registered (adopted nc o) = (o.map registered).getD true := by
  cases o with
  | none => rfl
  | some n =>
    by_cases h : registered n
    · have h' : registered { n with config := nc } := h
      simp only [adopted, h, h', ↓reduceIte, Option.map_some, Option.getD_some]
    · simp only [adopted, h, Bool.false_eq_true, ↓reduceIte, Option.map_some, Option.getD_some]

theorem status_adopted (nc : NodeConfig) (o : Option Node) :
    (adopted nc o).status = (o.map (·.status)).getD (.new .registered) := by
  cases o with
  | none => rfl
  | some n =>
    simp only [adopted]
    split <;> rfl

/-- A name that this instance configures stands for the same node as before. -/
theorem kept_own {fed : FedState} {regs : List NodeConfig} {n : String} {node : Node} (hr : registered node = false) :
    (regs.foldl adoptRegistered (fed.nodes.filter fun n node =>
      !registered node || (regs.map (·.name)).contains n))[n]? = some node ↔ fed.nodes[n]? = some node := by
  rw [kept_get]
  cases lastNamed n regs with
  | none =>
    simp only [Option.filter_eq_some_iff, hr]
    simp
  | some nc =>
    constructor
    · intro h
      obtain rfl := Option.some.inj h
      cases ho : fed.nodes[n]? with
      | none => simp [registered_adopted, ho] at hr
      | some m =>
        rw [registered_adopted, ho] at hr
        have hm : registered m = false := hr
        simp [adopted, hm]
    · intro h
      simp [h, adopted, hr]

theorem applyRecords_applied {fed : FedState} {records : Records}
    (h : ∀ kv ∈ records.toList, wellFormed c kv) :
    ∃ fed', applyRecords c fed records = .ok fed' ∧ Applied c fed records fed' := by
  obtain ⟨⟨next, regs⟩, hacc, hadds⟩ := applyEach_reads h ({}, [])
  have hregs : regs = recordedNodes c records := hadds.nodes
  refine ⟨_, by rw [applyRecords, hacc]; rfl, ?_⟩
  constructor
  · intro n; exact (hadds.volumes n).trans (by simp)
  · intro n; exact (hadds.snapshots n).trans (by simp)
  · intro n; exact (hadds.groupSnapshots n).trans (by simp)
  · intro n; exact (hadds.backups n).trans (by simp)
  · intro n; exact (hadds.vmMigrations n).trans (by simp)
  · exact hadds.orphans
  · exact hadds.staleHeads
  · rfl
  · intro n node hr
    exact kept_own hr
  · intro n
    rw [kept_get, ← lastNamed_isSome, ← hregs]
    cases lastNamed n regs with
    | none =>
      simp only [Option.filter_eq_some_iff]
      simp
    | some nc =>
      simp only [Option.some.injEq, exists_eq_left', registered_adopted]
      cases fed.nodes[n]? <;> simp
  · intro n node hn hr
    rw [kept_get] at hn
    rw [← hregs]
    cases hl : lastNamed n regs with
    | none =>
      rw [hl] at hn
      have := (Option.filter_eq_some_iff.mp hn).2
      simp [hr] at this
    | some nc =>
      rw [hl] at hn
      obtain rfl := Option.some.inj hn
      rw [adopted_config hr]
  · intro n node hn
    rw [kept_get] at hn
    cases hl : lastNamed n regs with
    | none =>
      rw [hl] at hn
      rw [(Option.filter_eq_some_iff.mp hn).1]
      rfl
    | some nc =>
      rw [hl] at hn
      obtain rfl := Option.some.inj hn
      exact status_adopted nc _

/-! ## One assignment at a time -/

theorem run_forM_adopt (regs : List NodeConfig) (fed : FedState) :
    ((regs.forM fun nc => modify fun fed => { fed with nodes := adoptRegistered fed.nodes nc } :
      ExceptT String (StateM FedState) Unit).run.run fed) =
      (.ok (), { fed with nodes := regs.foldl adoptRegistered fed.nodes }) := by
  induction regs generalizing fed with
  | nil => rfl
  | cons nc regs ih => exact ih _

/-- `applyRecords` is what the assignments make of the state, and a record that
does not read comes before the first of them. -/
theorem run_applyRecordsTo (records : Records) (fed : FedState) :
    (applyRecordsTo c records).run.run fed =
      match applyRecords c fed records with
      | .ok fed' => (.ok (), fed')
      | .error e => (.error e, fed) := by
  unfold applyRecords
  cases hacc : applyEach c records.toList ({}, []) with
  | error e =>
    unfold applyRecordsTo
    rw [hacc]
    rfl
  | ok x =>
    obtain ⟨next, regs⟩ := x
    unfold applyRecordsTo
    rw [hacc]
    exact run_forM_adopt regs _

/-- A record that does not read leaves the state as it was, and is named; else
the state holds what the records say. -/
theorem applyRecordsTo_all_or_nothing (c : Codecs) (fed : FedState) (records : Records) :
    if records.toList.all (wellFormed c) then
      ∃ fed', (applyRecordsTo c records).run.run fed = (.ok (), fed') ∧ Applied c fed records fed'
    else
      ∃ kv ∈ records.toList, wellFormed c kv = false ∧
        ∃ e : String, (applyRecordsTo c records).run.run fed = (.error s!"store key {kv.1}: {e}", fed) := by
  rw [run_applyRecordsTo]
  split
  · rename_i h
    have hall : ∃ fed', applyRecords c fed records = .ok fed' ∧ Applied c fed records fed' :=
      applyRecords_applied (List.all_eq_true.mp h)
    obtain ⟨fed', hf, ha⟩ := hall
    exact ⟨fed', by rw [hf], ha⟩
  · rename_i h
    have h' : ∃ kv ∈ records.toList, wellFormed c kv = false := by
      simpa using h
    obtain ⟨kv, hm, hf, e, he⟩ := applyEach_malformed h' ({}, [])
    exact ⟨kv, hm, hf, e, by rw [applyRecords, he]; rfl⟩

end StormStorage
