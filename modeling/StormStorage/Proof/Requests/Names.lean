import StormStorage.Proof.Requests.Admission
import StormStorage.Proof.Volumes.Degraded

/-!
# One name, one record

Volumes and snapshots share one namespace. A create checks its names, calls
engines, and records what it made without another check: where no two creates
that have not recorded yet are to give one name, no record is overwritten or
lost (`names_once`).
-/

namespace StormStorage

open Await Task Orchestrate

/-- No two creates that are under way and have not recorded yet give one name. -/
def Alone (w : AppState) : Prop := ∀ a ∈ w.undertakings, ∀ b ∈ w.undertakings, a.task ≠ b.task →
  a.recorded = false → b.recorded = false → (∀ n ∈ a.creates, n ∉ b.creates) ∧ ∀ g ∈ a.groups, g ∉ b.groups

def Creation.isIn (fed : FedState) (c : Creation) : Bool :=
  if c.group then fed.groupSnapshots.contains c.name else fed.taken c.name

/-- What a create recorded had a name of its own, and is there. -/
structure Creation.Stands (fed : FedState) (c : Creation) : Prop where
  own : c.taken = false
  there : c.isIn fed = true

/-- No volume has a snapshot's name. -/
def OneName (fed : FedState) : Prop := ∀ n, ¬ (fed.volumes.contains n = true ∧ fed.snapshots.contains n = true)

structure NamesInv (w : AppState) : Prop where
  named : Named w.fed
  oneName : OneName w.fed
  made : ∀ c ∈ w.creations, c.Stands w.fed
  /-- What is not recorded yet is free. -/
  free : ∀ u ∈ w.undertakings, u.recorded = false →
    (∀ n ∈ u.creates, w.fed.taken n = false) ∧ ∀ g ∈ u.groups, w.fed.groupSnapshots.contains g = false
  alone : Alone w

/-- Names and parents stay. -/
def KinKept (w w' : AppState) : Prop := ∀ n k, w.fed.kinAt n = some k → w'.fed.kinAt n = some k

theorem taken_eq {fed fed' : FedState} (hk : ∀ n, fed'.kinAt n = fed.kinAt n) (hs : fed'.snapshots = fed.snapshots)
    (n : String) : fed'.taken n = fed.taken n := by
  rw [FedState.taken, FedState.contains_eq, hk, hs, FedState.taken, FedState.contains_eq]

/-- Nothing that is there goes away. -/
structure Grown (fed fed' : FedState) : Prop where
  taken : ∀ n, fed.taken n = true → fed'.taken n = true
  groups : ∀ g, fed.groupSnapshots.contains g = true → fed'.groupSnapshots.contains g = true

theorem Creation.Stands.grown {fed fed' : FedState} {c : Creation} (h : c.Stands fed) (hg : Grown fed fed') :
    c.Stands fed' := by
  refine ⟨h.own, ?_⟩
  have hin := h.there
  unfold Creation.isIn at hin ⊢
  split at hin
  · rw [if_pos ‹_›]
    exact hg.groups _ hin
  · rw [if_neg ‹_›]
    exact hg.taken _ hin

/-- A create that records under names of its own. -/
theorem NamesInv.recorded {w : AppState} {t : Nat} {u : Undertaking} {names groups : List String}
    {f : FedState → FedState} (hi : NamesInv w) (hu : Undertakes t u w) (hopen : u.recorded = false)
    (hnames : ∀ n ∈ names, n ∈ u.creates) (hgroups : ∀ g ∈ groups, g ∈ u.groups) (hnamed : Named (f w.fed))
    (hone : OneName (f w.fed)) (htaken : ∀ n, (f w.fed).taken n = (w.fed.taken n || n ∈ names))
    (hgrouped : ∀ g, (f w.fed).groupSnapshots.contains g = (w.fed.groupSnapshots.contains g || g ∈ groups))
    (hok : Alone ((w.recorded t names groups).revise f)) : NamesInv ((w.recorded t names groups).revise f) := by
  have hgrown : Grown w.fed ((w.recorded t names groups).revise f).fed :=
    ⟨fun n h => (htaken n).trans (by rw [h, Bool.true_or]), fun g h => (hgrouped g).trans (by rw [h, Bool.true_or])⟩
  obtain ⟨hfree, hgfree⟩ := hi.free u hu.1 hopen
  refine ⟨hnamed, hone, fun c hc => ?_, fun x hx hxo => ?_, hok⟩
  · rcases List.mem_append.mp hc with hc | hc
    · rcases List.mem_append.mp hc with hc | hc
      · exact (hi.made c hc).grown hgrown
      · obtain ⟨n, hn, rfl⟩ := List.mem_map.mp hc
        refine ⟨hfree n (hnames n hn), ?_⟩
        show (f w.fed).taken n = true
        rw [htaken, decide_eq_true hn, Bool.or_true]
    · obtain ⟨g, hg, rfl⟩ := List.mem_map.mp hc
      refine ⟨hgfree g (hgroups g hg), ?_⟩
      show (f w.fed).groupSnapshots.contains g = true
      rw [hgrouped, decide_eq_true hg, Bool.or_true]
  · obtain ⟨i, hxm, -, hmark⟩ := mem_recorded hx
    obtain ⟨rfl, hne⟩ := hmark hxo
    obtain ⟨hxfree, hxgfree⟩ := hi.free i hxm hxo
    obtain ⟨hapart, hgapart⟩ := hi.alone i hxm u hu.1 (fun he => hne (he.trans hu.2)) hxo hopen
    refine ⟨fun n hn => ?_, fun g hg => ?_⟩
    · show (f w.fed).taken n = false
      rw [htaken, hxfree n hn, decide_eq_false fun h => hapart n hn (hnames n h)]
      rfl
    · show (f w.fed).groupSnapshots.contains g = false
      rw [hgrouped, hxgfree g hg, decide_eq_false fun h => hgapart g hg (hgroups g h)]
      rfl

theorem bookkeeping_names : Bookkeeping (fun _ => True) NamesInv Alone KinKept where
  named w hi := hi.named
  aside w w' hi h hok := by
    refine ⟨⟨?_, fun n => ?_, ?_, ?_, hok⟩, fun n k hk => (h.kin n).trans hk⟩
    · intro n v hv
      have := h.kin n
      rw [FedState.kinAt, hv, Option.map_some] at this
      obtain ⟨v₀, hv₀, hk⟩ := Option.map_eq_some_iff.mp this.symm
      exact (congrArg Kin.name hk).symm.trans (hi.named n v₀ hv₀)
    · rw [FedState.contains_eq, h.kin, h.snapshots, ← FedState.contains_eq]
      exact hi.oneName n
    · rw [h.creations]
      refine fun c hc => (hi.made c hc).grown ⟨fun n hn => ?_, fun g hg => ?_⟩
      · rwa [taken_eq h.kin h.snapshots]
      · rwa [h.groups]
    · rw [h.undertakings]
      intro u hu hopen
      simp only [taken_eq h.kin h.snapshots, h.groups]
      exact hi.free u hu hopen
  enter w u w' hi hadm hw hok := by
    subst hw
    refine ⟨⟨hi.named, hi.oneName, hi.made, fun x hx hopen => ?_, hok⟩, fun _ _ hk => hk⟩
    rcases List.mem_append.mp hx with hx | hx
    · exact hi.free x hx hopen
    · obtain rfl := List.mem_singleton.mp hx
      exact ⟨hadm.free, hadm.groupFree⟩
  ended w t w' hi hw hok := by
    subst hw
    exact ⟨⟨hi.named, hi.oneName, hi.made, fun x hx hopen => hi.free x (List.mem_filter.mp hx).1 hopen, hok⟩,
      fun _ _ hk => hk⟩
  volume w t u v w' hi hu hopen hname _ _ hw hok := by
    have hfree := (hi.free u hu.1 hopen).1 v.name hname
    rw [FedState.taken, Bool.or_eq_false_iff] at hfree
    have hcontains : ∀ n, (w.fed.volumes.insert v.name v).contains n = (w.fed.volumes.contains n || n = v.name) := by
      intro n
      rw [KeyMap.contains_eq, KeyMap.get_insert, KeyMap.contains_eq]
      by_cases hn : v.name = n
      · simp [hn]
      · have hn' : ¬ n = v.name := fun he => hn he.symm
        simp [hn, hn']
    subst hw
    refine ⟨hi.recorded hu hopen (fun n hn => List.mem_singleton.mp hn ▸ hname)
      (fun _ hg => absurd hg List.not_mem_nil) ?_ ?_ ?_ ?_ hok, fun n k hk => ?_⟩
    · intro n x hx
      rw [show (_ : FedState).volumes = w.fed.volumes.insert v.name v from rfl, KeyMap.get_insert] at hx
      split at hx
      · exact Option.some.inj hx ▸ ‹_›
      · exact hi.named n x hx
    · rintro n ⟨hv, hs⟩
      change (w.fed.volumes.insert v.name v).contains n = true at hv
      rw [hcontains, Bool.or_eq_true] at hv
      rcases hv with hv | hv
      · exact hi.oneName n ⟨hv, hs⟩
      · rw [of_decide_eq_true hv] at hs
        exact Bool.false_ne_true (hfree.2.symm.trans hs)
    · intro n
      rw [FedState.taken, hcontains, FedState.taken]
      by_cases hn : n = v.name <;> simp [hn]
    · exact fun g => by simp
    · show FedState.kinAt _ n = some k
      rw [FedState.kinAt_insert w.fed _ n rfl, if_neg ?_]
      · exact hk
      · rintro rfl
        rw [FedState.contains_eq, hk] at hfree
        cases hfree.1
  snapshots w t u members groups f w' hi hu hopen hmembers hgroups hf hw hok := by
    subst hw
    have hkin : ∀ n, (f w.fed).kinAt n = w.fed.kinAt n := fun n => by rw [FedState.kinAt, hf.volumes]; rfl
    refine ⟨hi.recorded hu hopen ?_ hgroups ?_ ?_ ?_ hf.groups hok, fun n k hk => (hkin n).trans hk⟩
    · intro n hn
      obtain ⟨s, hs, rfl⟩ := List.mem_map.mp hn
      exact (hmembers s hs).1
    · intro n v hv
      exact hi.named n v (hf.volumes ▸ hv)
    · rintro n ⟨hv, hs⟩
      rw [hf.volumes] at hv
      rw [hf.names, Bool.or_eq_true] at hs
      rcases hs with hs | hs
      · exact hi.oneName n ⟨hv, hs⟩
      · obtain ⟨s, hm, rfl⟩ := List.mem_map.mp (of_decide_eq_true hs)
        have hfree := (hi.free u hu.1 hopen).1 _ (hmembers s hm).1
        rw [FedState.taken, hv] at hfree
        cases hfree
    · intro n
      rw [FedState.taken, hf.names, hf.volumes, FedState.taken, Bool.or_assoc]

/-! ## Assembling and serving what was made -/

abbrev NamesSafe (t : Nat) {α : Type} (task : Async α) (Q : Except Fault α → AppState → Prop) (w : AppState) : Prop :=
  RequestSafe NamesInv Alone KinKept t task Q w

section

variable {t : Nat} {w : AppState} {name : String} {cfg : Config} {k : Kin}

theorem stable_kin : (requests NamesInv Alone KinKept).Stable t fun w => w.fed.kinAt name = some k :=
  fun _ _ _ _ _ _ hg hs => hg.1 _ _ hs

theorem SameLegs.isEmpty {legs legs' : List Leg} (h : SameLegs legs legs') : legs'.isEmpty = legs.isEmpty := by
  have hlen : legs'.length = legs.length := by simpa using congrArg List.length h
  cases legs <;> cases legs' <;> simp_all

theorem kin_assembled {head : String} {vol vol' : DistVolume} (h : AssembledFrom head vol vol') : vol'.kin = vol.kin := by
  obtain ⟨legs, hlegs, rfl | ⟨array, rfl⟩⟩ := h <;> exact congrArg (Kin.mk vol.name vol.cloneOf) hlegs.isEmpty

theorem aside_writeBack {vol : DistVolume} (hk : w.fed.kinAt name = some vol.kin) : Aside w (w.writeBack name vol) := by
  have hin : w.fed.volumes.contains name = true := by rw [FedState.contains_eq, hk]; rfl
  unfold AppState.writeBack
  rw [if_pos hin]
  refine ⟨rfl, rfl, rfl, rfl, fun n => ?_⟩
  rw [FedState.kinAt_insert w.fed _ n rfl]
  split
  · rename_i he
    rw [← he, hk]
  · rfl

theorem aside_claim {me : Nat} : (claim me name).Only Aside := by
  refine only_atomic fun _ w => ?_
  split <;> exact ⟨rfl, rfl, rfl, rfl, fun _ => rfl⟩

theorem safe_assembleClaimed (hi : NamesInv w) :
    NamesSafe t (assembleClaimed cfg name) (fun _ _ => True) w := by
  have hany : ∀ (x : Except Fault Unit) w, NamesInv w → NamesSafe t (.ofExcept x) (fun _ _ => True) w := by
    intro x w hi
    cases x with
    | ok _ => exact Safe.ret stable_any (fun _ _ _ => trivial) hi trivial
    | error _ => exact Safe.fail stable_any (fun _ _ _ => trivial) hi trivial
  refine Safe.bind (Q := fun x w => ∀ vol, x = .ok vol → w.fed.kinAt name = some vol.kin) hi ?_ (fun vol w hi h => ?_)
    fun _ _ _ => trivial
  · refine Safe.step (P := fun _ => True) stable_any (fun s i hi _ _ hok => ?_) hi trivial
    dsimp only at hok ⊢
    split
    · rename_i vol hvol
      simp only [hvol] at hok
      have haside : Aside s { s.noteHeading name (vol.legs.head?.map (·.node)) with
          copies := s.copies.insert name (id vol) } := ⟨rfl, rfl, rfl, rfl, fun _ => rfl⟩
      obtain ⟨hi', hg⟩ := bookkeeping_names.step_aside (some t) hi haside hok
      refine ⟨hi', hg, ?_⟩
      have hk : s.fed.kinAt name = some vol.kin := by
        rw [FedState.kinAt, (assembleReady_ok hvol).1]
        rfl
      exact Safe.ret stable_kin (fun _ _ hk vol' he => Except.ok.inj he ▸ hk) hi' hk
    · rename_i e he
      simp only [he] at hok
      obtain ⟨hi', hg⟩ := bookkeeping_names.step_aside (some t) hi (.refl s) hok
      exact ⟨hi', hg, Safe.fail stable_any (fun _ _ _ _ h => by cases h) hi' trivial⟩
  · have hinner : NamesSafe t (assembleInner cfg ((vol.legs.head?.map (·.node)).getD "") vol)
        (fun x s => s.fed.kinAt name = some vol.kin ∧ ∀ r, x = .ok r → r.1.kin = vol.kin) w :=
      (Safe.of_answers (aside_remote remote_assembleInner) answers_assembleInner stable_kin
        (fun s s' hi hs h hok => ⟨(bookkeeping_names.step_aside none hi h hok).1,
          (bookkeeping_names.step_aside _ hi h hok).2, (h.kin _).trans hs⟩) hi (h vol rfl)).mono
        fun x s h => ⟨h.1, fun r hr => kin_assembled (h.2 r hr)⟩
    refine hinner.bind hi (fun r w hi h => ?_) fun _ _ _ => trivial
    obtain ⟨vol', stopped⟩ := r
    have hk : w.fed.kinAt name = some vol'.kin := h.1.trans (congrArg some (h.2 _ rfl).symm)
    refine Safe.bind (Q := fun _ _ => True) hi ?_ (fun _ w hi _ => ?_) fun _ _ _ => trivial
    · refine Safe.step stable_kin (fun s i hi hk _ hok => ?_) hi hk
      have hback : ∀ x, Aside s (s.writeBack name { vol' with nextAssembleAfter := x }) := fun x => aside_writeBack hk
      have haside : Aside s ((fun w : AppState => if stopped.isNone then w.revise id else w)
          (s.writeBack name { vol' with
            nextAssembleAfter := if stopped.isNone then none else some (i.now + cfg.cooldown) })) := by
        dsimp only
        split
        · exact ⟨(hback none).undertakings, (hback none).creations, (hback none).snapshots, (hback none).groups,
            (hback none).kin⟩
        · exact hback _
      obtain ⟨hi', hg⟩ := bookkeeping_names.step_aside (some t) hi haside hok
      exact ⟨hi', hg, Safe.ret stable_any (fun _ _ _ => trivial) hi' trivial⟩
    · split
      · exact Safe.ret stable_any (fun _ _ _ => trivial) hi trivial
      · exact Safe.fail stable_any (fun _ _ _ => trivial) hi trivial

theorem safe_assemble (hi : NamesInv w) : NamesSafe t (assemble cfg t name) (fun _ _ => True) w := by
  refine (safe_aside bookkeeping_names aside_claim hi).bind hi (fun mine w hi _ => ?_) fun _ _ _ => trivial
  cases mine with
  | false => exact Safe.fail stable_any (fun _ _ _ => trivial) hi trivial
  | true =>
    refine (safe_assembleClaimed hi).attempt_bind hi fun r w hi _ => ?_
    refine (safe_aside bookkeeping_names (only_atomic fun _ _ => ⟨rfl, rfl, rfl, rfl, fun _ => rfl⟩) hi).bind hi
      (fun _ w hi _ => ?_) fun _ _ _ => trivial
    cases r with
    | ok _ => exact Safe.ret stable_any (fun _ _ _ => trivial) hi trivial
    | error _ => exact Safe.fail stable_any (fun _ _ _ => trivial) hi trivial

theorem safe_createLegged {req : Api.CreateVolumeRequest} {hosts : List HostServe} (hi : NamesInv w) :
    NamesSafe t (Api.createLegged cfg t req hosts) (fun _ _ => True) w := by
  refine (safe_enter bookkeeping_names (Q := fun _ => True)
    (fun fed _ _ h => ⟨legNameFree_ok h, rfl, trivial⟩) hi).bind hi (fun _ w hi h => ?_) fun _ _ _ => trivial
  obtain ⟨hu, hopen, -⟩ := h () rfl
  refine (safe_calls bookkeeping_names (aside_remote (remote_get _)) (answers_true _) hi hu).bind hi
    (fun x w hi h => ?_) fun _ _ _ => trivial
  refine (safe_calls bookkeeping_names (aside_remote (only_ofExcept x)) (answers_true _) hi h.1).bind hi
    (fun r w hi h => ?_) fun _ _ _ => trivial
  obtain ⟨rp, picks⟩ := r
  refine (safe_calls bookkeeping_names (aside_remote (Api.remote_createLegs _)) (answers_true _) hi h.1).bind hi
    (fun made w hi h => ?_) fun _ _ _ => trivial
  split
  · refine (safe_aside bookkeeping_names (aside_remote (only_forEach (fun _ => Api.remote_rollbackLeg) _)) hi).bind hi
      (fun _ w hi _ => ?_) fun _ _ _ => trivial
    exact Safe.fail stable_any (fun _ _ _ => trivial) hi trivial
  · refine Safe.bind (Q := fun _ _ => True) hi ?_ (fun _ w hi _ => ?_) fun _ _ _ => trivial
    · exact safe_recordVolume bookkeeping_names hi h.1 hopen (fun _ => rfl) (List.mem_singleton_self _)
        (fun _ => trivial) fun now c hc => nomatch hc
    · refine Safe.bind (Q := fun _ _ => True) hi ?_ (fun x w hi _ => ?_) fun _ _ _ => trivial
      · unfold Api.wire
        split
        · exact (safe_assemble hi).attempt fun _ _ _ => trivial
        · exact Safe.ret stable_any (fun _ _ _ => trivial) hi trivial
      · cases x with
        | ok _ => exact safe_served bookkeeping_names hi
        | error _ => exact Safe.ret stable_any (fun _ _ _ => trivial) hi trivial

theorem safe_createVolume {req : Api.CreateVolumeRequest} (hi : NamesInv w) :
    NamesSafe t (Api.createVolume cfg t req) (fun _ _ => True) w := by
  refine (safe_aside bookkeeping_names (aside_remote (only_ofExcept _)) hi).bind hi (fun hosts w hi _ => ?_)
    fun _ _ _ => trivial
  split
  · refine (safe_aside bookkeeping_names (aside_remote (only_ofExcept _)) hi).bind hi (fun _ w hi _ => ?_)
      fun _ _ _ => trivial
    exact safe_createClone bookkeeping_names (fun _ _ => trivial) hi
  · refine (safe_aside bookkeeping_names (aside_remote (only_ofExcept _)) hi).bind hi (fun _ w hi _ => ?_)
      fun _ _ _ => trivial
    exact safe_createLegged hi

end

/-! ## Every run -/

/-- The requests that give names. -/
def Creates : VolumeOp → Prop
  | .create _ | .snapshot .. | .group .. | .restore .. => True
  | _ => False

/-- In every run of creates of which no two that have not recorded yet give
one name, no name has two records, and what a create recorded had a name of
its own and is there. -/
theorem names_once {cfg : Config} {w : AppState} {p : Pool Reply AppState Fault}
    (h : (operations cfg Creates).Run (fun _ w' => Alone w') ⟨w, []⟩ p) (hnamed : Named w.fed) (hone : OneName w.fed)
    (hidle : w.undertakings = [] ∧ w.creations = []) :
    OneName p.state.fed ∧ ∀ c ∈ p.state.creations, c.Stands p.state.fed := by
  have hkept : System.Run.Kept (requests NamesInv Alone KinKept) p := by
    refine System.Run.safe (d := requests NamesInv Alone KinKept) ?_ ?_ ?_ rfl h
    · rintro t ⟨op, hop⟩ w hi
      cases op with
      | create req => exact safe_tracked bookkeeping_names (safe_createVolume hi) hi
      | snapshot name volumeId => exact safe_tracked bookkeeping_names (safe_createSnapshot bookkeeping_names hi) hi
      | group name volumeIds => exact safe_tracked bookkeeping_names (safe_createGroup bookkeeping_names hi) hi
      | restore volume point name =>
        exact safe_tracked bookkeeping_names (safe_restore bookkeeping_names (fun _ => trivial) hi) hi
      | _ => exact hop.elim
    · exact fun nodes w hi hok => bookkeeping_names.step_aside none hi ⟨rfl, rfl, rfl, rfl, fun _ => rfl⟩ hok
    · refine ⟨hnamed, hone, ?_, ?_, ?_⟩
      · simp [hidle.2]
      · simp [hidle.1]
      · simp [Alone, hidle.1]
  exact ⟨hkept.1.oneName, hkept.1.made⟩

/-! ### A small run -/

/-- A volume of one leg. -/
def ownVolume (name node : String) : DistVolume where
  name := name
  sizeBytes := 10
  pool := none
  replicas := 1
  rung := "node"
  legs := [{ node := node, volumeId := some "d", state := .created, masterNode := some "m" }]
  assembly := .singleLeg
  createdAt := 0

/-- Node a holds volume u. -/
def ownStart : AppState :=
  { fed := { nodes := nodesOf [("a", true)], volumes := (∅ : KeyMap DistVolume).insert "u" (ownVolume "u" "a") } }

theorem ownStart_volume {n : String} {v : DistVolume} (h : ownStart.fed.volumes[n]? = some v) :
    n = "u" ∧ v = ownVolume "u" "a" := by
  simp only [ownStart, KeyMap.get_insert] at h
  split at h
  · exact ⟨Eq.symm ‹_›, (Option.some.inj h).symm⟩
  · simp at h

theorem named_ownStart : Named ownStart.fed := by
  intro n v h
  obtain ⟨rfl, rfl⟩ := ownStart_volume h
  rfl

theorem oneName_ownStart : OneName ownStart.fed := fun n h => by simp [ownStart] at h

/-- Volume x is made while a snapshot of u is taken under this name. -/
def createBeside (name : String) : List (VolumeMove Creates) :=
  [.start ⟨.create { name := "x", sizeBytes := 10 }, trivial⟩, .start ⟨.snapshot name "u", trivial⟩] ++
    List.replicate 2 (.run 0 plainReply) ++ List.replicate 7 (.run 1 { plainReply with made := "s" }) ++
    List.replicate 3 (.run 0 plainReply)

instance (w : AppState) : Decidable (Alone w) := inferInstanceAs (Decidable (∀ a ∈ w.undertakings, _))

theorem names_once_small : ∃ p, (operations plainConfig Creates).Run (fun _ w' => Alone w') ⟨ownStart, []⟩ p ∧
    p.state.fed.volumes.keys = ["u", "x"] ∧ p.state.fed.snapshots.keys = ["s"] ∧
    OneName p.state.fed ∧ ∀ c ∈ p.state.creations, c.Stands p.state.fed := by
  have hr : (operations plainConfig Creates).Run (fun _ w' => Alone w') ⟨ownStart, []⟩
      ((operations plainConfig Creates).final (fun _ w' => Alone w') ⟨ownStart, []⟩ (createBeside "s")) :=
    System.run_final (fun _ _ => of_decide_eq_true) (by decide +kernel)
  exact ⟨_, hr, by decide +kernel, by decide +kernel, names_once hr named_ownStart oneName_ownStart ⟨rfl, rfl⟩⟩

/-- The snapshot is taken under the volume's name. -/
theorem not_names_once : ¬ ∀ (w : AppState) (p : Pool Reply AppState Fault),
    (operations plainConfig Creates).Run (fun _ _ => True) ⟨w, []⟩ p → Named w.fed → OneName w.fed →
    w.undertakings = [] ∧ w.creations = [] → OneName p.state.fed ∧ ∀ c ∈ p.state.creations, c.Stands p.state.fed := by
  intro h
  have hr : (operations plainConfig Creates).Run (fun _ _ => True) ⟨ownStart, []⟩
      ((operations plainConfig Creates).final (fun _ _ => true) ⟨ownStart, []⟩ (createBeside "x")) :=
    System.run_final (fun _ _ _ => trivial) (by decide +kernel)
  have hone := (h _ _ hr named_ownStart oneName_ownStart ⟨rfl, rfl⟩).1
  exact hone "x" ⟨by decide +kernel, by decide +kernel⟩

end StormStorage
