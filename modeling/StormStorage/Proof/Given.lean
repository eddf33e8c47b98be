import StormStorage.Proof.Exports.Rule
import StormStorage.Proof.Steps.Heads

/-!
# The ids that exports name

A record's export names a node and the id of the served volume there. The two
are written together, from what that node's engine answered, but for one write:
a publish that finds its node unreachable records the node beside the id that
is there. Where that id is the node's own, every record in every run names an id
that its node answered for the served volume (`exports_given`).

* `serveAt_told`: what a publish reads;
* `naming_rule`: what each step writes.
-/

namespace StormStorage

open Await Task Orchestrate

/-! ## What records say -/

/-- What a record says of its served volume was answered by engines. -/
structure DistVolume.Genuine (as : List IdAnswer) (v : DistVolume) : Prop where
  «export» : ∀ id, v.export.volumeId = some id → ∃ node, v.export.node = some node ∧ ⟨node, servedName v, id⟩ ∈ as
  /-- A single leg is served as itself. -/
  leg : v.assembly = .singleLeg → ∀ l, v.legs.head? = some l → ∀ id, l.volumeId = some id →
    ⟨l.node, servedName v, id⟩ ∈ as

/-- A publish of the volume that found its node unreachable comes to its end
where the record names no id, or one of that node. -/
def Unstrayed (name : String) (w w' : AppState) : Prop :=
  ∀ p ∈ w.publishes, p.volume.name = name → p.up = false → p ∉ w'.publishes →
    ∀ v, w.fed.volumes[name]? = some v → ∀ id, v.export.volumeId = some id → v.export.node = some p.node

/-- A record that is served under the name `served`. -/
def Naming (served : String) (as : List IdAnswer) (v : DistVolume) : Prop := servedName v = served ∧ v.Genuine as

/-- A publish that has found no served volume yet, or one that was answered. -/
def Publish.Naming (served : String) (as : List IdAnswer) (p : Publish) : Prop :=
  servedName p.volume = served ∧ ∀ id, p.volumeId = some id → ⟨p.node, served, id⟩ ∈ as

section

variable {served name n : String} {as as' : List IdAnswer} {v v' : DistVolume} {w w' : AppState} {place : ServeAt}

theorem DistVolume.Genuine.mono (h : v.Genuine as) (ha : as ⊆ as') : v.Genuine as' where
  «export» id hid :=
    have ⟨node, hnode, hm⟩ := h.export id hid
    ⟨node, hnode, ha hm⟩
  leg hs l hl id hid := ha (h.leg hs l hl id hid)

/-- A volume with an array is served by its mirror. -/
theorem servedName_mirrored (h : v.mirrored) : servedName v = v.name ++ mirrorSuffix := by
  rcases h with h | h <;> simp [servedName, h]

theorem not_singleLeg (h : v.mirrored) : v.assembly ≠ .singleLeg := by
  rcases h with h | h <;> simp [h]

theorem servedName_congr (hn : v'.name = v.name) (ha : v'.assembly = v.assembly) : servedName v' = servedName v := by
  simp only [servedName, hn, ha]

/-- The first of the same legs. -/
theorem head_same {legs legs' : List Leg} (h : SameLegs legs legs') {l' : Leg} (hl : legs'.head? = some l') :
    ∃ l, legs.head? = some l ∧ l'.face = l.face := by
  have hface : (legs'.map Leg.face).head? = (legs.map Leg.face).head? := by rw [h]
  rw [List.head?_map, List.head?_map, hl] at hface
  obtain ⟨l, hl, he⟩ := Option.map_eq_some_iff.mp hface.symm
  exact ⟨l, hl, he.symm⟩

/-- An edit that keeps the id, its node and the legs. -/
theorem Naming.keep {s : String} (h : Naming s as v) (hn : v'.name = v.name) (ha : v'.assembly = v.assembly)
    (hex : v'.export.about = v.export.about) (hl : SameLegs v.legs v'.legs) : Naming s as v' := by
  have hserved := servedName_congr hn ha
  have hid : v'.export.volumeId = v.export.volumeId := congrArg Prod.fst hex
  have hnode : v'.export.node = v.export.node := congrArg (fun a => a.2.1) hex
  refine ⟨hserved.trans h.1, ⟨fun id h' => ?_, fun hs l' hl' id h' => ?_⟩⟩
  · rw [hserved, hnode]
    exact h.2.export id (hid.symm.trans h')
  · obtain ⟨l, hfirst, hface⟩ := head_same hl hl'
    have hnode : l'.node = l.node := congrArg Prod.fst hface
    have hvol : l'.volumeId = l.volumeId := congrArg (fun f => f.2.1) hface
    rw [hserved, hnode]
    exact h.2.leg (ha.symm.trans hs) l hfirst id (hvol.symm.trans h')

/-- A volume with an array, whose export names an id of `node`, if any. -/
theorem naming_mirrored {s node : String} (hup : v.mirrored) (hs : v.name ++ mirrorSuffix = s)
    (hnode : v.export.node = some node) (hid : ∀ id, v.export.volumeId = some id → ⟨node, s, id⟩ ∈ as) :
    Naming s as v := by
  have hserved := (servedName_mirrored hup).trans hs
  refine ⟨hserved, ⟨fun id h' => ⟨node, hnode, ?_⟩, fun hsingle => absurd hsingle (not_singleLeg hup)⟩⟩
  rw [hserved]
  exact hid id h'

/-- An id that is kept where the export is on the node. -/
theorem told_here {node id : String} (hv : v.Genuine as)
    (hid : (if v.export.node = some node then v.export.volumeId else none) = some id) :
    ⟨node, servedName v, id⟩ ∈ as := by
  split at hid
  · rename_i hhere
    obtain ⟨node', hnode, hm⟩ := hv.export id hid
    obtain rfl := Option.some.inj (hhere.symm.trans hnode)
    exact hm
  · cases hid

/-- Where a volume with legs is served, and the id that it has there. -/
theorem serveOwn_told {fed : FedState} (h : serveOwn fed v = .ok place) (hv : v.Genuine as) {id : String}
    (hid : place.volumeId = some id) : ⟨place.node, servedName v, id⟩ ∈ as := by
  by_cases hup : v.mirrored
  · rw [(serveOwn_mirrored hup h).2] at hid
    exact told_here hv hid
  · unfold serveOwn at h
    split at h
    · rename_i hsingle
      split at h
      · cases h
      · rename_i leg hleg
        obtain ⟨-, -, h⟩ := check_bind.mp h
        obtain rfl := Except.ok.inj h
        exact hv.leg hsingle leg (Option.filter_eq_some_iff.mp hleg).1 id hid
    · exact absurd (.inl ‹_›) hup
    · exact absurd (.inr ‹_›) hup
    · cases h
    · cases h

/-- What a publish reads of where a volume is served was answered there. -/
theorem serveAt_told {fed : FedState} (h : serveAt fed v = .ok place) (hv : v.Genuine as) {id : String}
    (hid : place.volumeId = some id) : ⟨place.node, servedName v, id⟩ ∈ as := by
  unfold serveAt at h
  split at h
  · split at h
    · cases h
    · obtain ⟨p, -, h⟩ := check_bind.mp h
      obtain rfl := Except.ok.inj h
      exact told_here hv hid
  · exact serveOwn_told h hv hid

theorem sameLegs_record {s : Served} {vol : DistVolume} {now : SystemTime} :
    SameLegs v.legs (s.record n vol place now v).legs := by
  unfold Served.record
  dsimp only
  split
  · split
    · exact sameLegs_exportLeg _ _
    · exact .refl _
  · exact .refl _

/-! ## Steps -/

/-- Every write names an id that was answered. -/
theorem naming_rule (hok : Unstrayed name w w') :
    ExportRule (Naming served w.answered) (Publish.Naming served w.answered) name w w' where
  edited v v' hv hun := hv.keep hun.name hun.assembly (by rw [hun.export]) hun.legs
  «export» v ex hv hex := hv.keep rfl rfl hex (.refl _)
  forgot v v' _ hf _ hv := by
    unfold forgetServed at hf
    split at hf
    · cases hf
    · split at hf
      · cases hf
      · obtain rfl := Except.ok.inj hf
        exact ⟨hv.1, ⟨fun id hid => (by cases hid), hv.2.leg⟩⟩
  began p place hplace hnode hvol hv := by
    refine ⟨hv.1, fun id hid => ?_⟩
    rw [hnode, ← hv.1]
    exact serveAt_told hplace hv.2 (hvol.symm.trans hid)
  unreached p hp hn hup hended _ v message hvol hv := by
    refine ⟨hv.1, ⟨fun id hid => ⟨p.node, rfl, ?_⟩, hv.2.leg⟩⟩
    obtain ⟨node, hnode, hm⟩ := hv.2.export id hid
    obtain rfl := Option.some.inj (hnode.symm.trans (hok p hp hn hup hended v hvol id hid))
    exact hm
  recorded p hp hn _ hptold v s place now hvol hnode hfinds hv := by
    have hlegs : SameLegs v.legs (s.record name p.volume place now v).legs := sameLegs_record
    have hkept : Naming served w.answered { v with legs := (s.record name p.volume place now v).legs } :=
      hv.keep rfl rfl rfl hlegs
    have habout : (s.record name p.volume place now v).export.about = (s.serving.volumeId, some place.node,
      s.serving.adopted) := about_record
    refine ⟨hkept.1, ⟨fun id hid => ⟨p.node, ?_, ?_⟩, hkept.2.leg⟩⟩
    · rw [← hnode]
      exact congrArg (fun a => a.2.1) habout
    · show (⟨p.node, servedName v, id⟩ : IdAnswer) ∈ w.answered
      rw [hv.1]
      rcases hfinds.told id ((congrArg Prod.fst habout).symm.trans hid) with hid | hm
      · exact hptold.2 id hid
      · rw [← hptold.1]
        exact hm
  promoted c vol target up across hname hup hvol hacross hc := by
    obtain ⟨legs, -, rfl⟩ := hvol
    have hserved : c.name ++ mirrorSuffix = served := (servedName_mirrored hup).symm.trans hc.1
    refine naming_mirrored (mirrored_promoted ..) hserved rfl fun id hid => ?_
    rw [← hserved, hname]
    exact hacross id hid
  reassembled c vol head array pick id hname hup _ hvol hm hc := by
    obtain ⟨legs, -, rfl⟩ := hvol
    have hserved : c.name ++ mirrorSuffix = served := (servedName_mirrored hup).symm.trans hc.1
    refine naming_mirrored (mirrored_reassembled ..) hserved rfl fun id' hid => ?_
    rw [← hserved, hname, ← Option.some.inj hid]
    exact hm
  lost c vol head array pick hup hvol hc := by
    obtain ⟨legs, -, rfl⟩ := hvol
    have habout : (Head.reassembled head array pick none { c with legs := legs }).export.about = c.export.about :=
      about_lost ..
    have hserved : servedName (Head.reassembled head array pick none { c with legs := legs }) = servedName c :=
      (servedName_mirrored (mirrored_reassembled ..)).trans (servedName_mirrored hup).symm
    refine ⟨hserved.trans hc.1, ⟨fun id hid => ?_, fun hs => absurd hs (not_singleLeg (mirrored_reassembled ..))⟩⟩
    obtain ⟨node, hnode, hm⟩ := hc.2.export id ((congrArg Prod.fst habout).symm.trans hid)
    rw [hserved]
    exact ⟨node, (congrArg (fun a => a.2.1) habout).trans hnode, hm⟩

/-! ## Runs -/

variable {cfg : Config} {p : Pool Reply AppState Fault}

/-- In every state reached, an id that the record names was answered by the
engine of the node beside it, for the served volume. -/
theorem exports_given (h₀ : Quiescent w) (hw : ∀ v, w.fed.volumes[name]? = some v → v.Genuine w.answered)
    (h : (operations cfg VolumeOp.serves).Run (Unstrayed name) ⟨w, []⟩ p) (hv : p.state.fed.volumes[name]? = some v)
    {id : String} (hid : v.export.volumeId = some id) :
    ∃ node, v.export.node = some node ∧ ⟨node, servedName v, id⟩ ∈ p.state.answered := by
  obtain ⟨served, hserved⟩ : ∃ served, ∀ v, w.fed.volumes[name]? = some v → servedName v = served :=
    ⟨((w.fed.volumes[name]?).map servedName).getD name, fun v hv => by rw [hv]; rfl⟩
  have hrun : Meets (Naming served p.state.answered) (Publish.Naming served p.state.answered) name p.state.exposed := by
    clear hv
    induction h with
    | refl => exact h₀.meets fun v hv => ⟨hserved v hv, hw v hv⟩
    | @step q q' m h hm hok ih =>
      rcases serve_step (fun _ h => h) (kept_serves (fun _ h => h) h₀.stepInv rfl h) hm with he | ⟨ha, hs⟩
      · rw [he]
        exact ih
      · exact (ih.step (naming_rule hok) hs).mono (fun _ hv => ⟨hv.1, hv.2.mono ha⟩)
          fun _ hp => ⟨hp.1, fun id hid => ha (hp.2 id hid)⟩
  exact (hrun.record v hv).2.export id hid

end

/-- A mirror that is served from a and was fenced when a was lost. -/
def fencedMirror : DistVolume := { rackVolume with
  fenced := true
  epoch := 2
  «export» := { state := .published, volumeId := some "s", node := some "a", localId := some "s" } }

/-- A clone of it, served from a. -/
def servedClone : DistVolume where
  name := "c"
  sizeBytes := 10
  pool := none
  replicas := 2
  rung := "rack"
  legs := []
  assembly := .clone
  createdAt := 0
  cloneOf := some { source := .volume "v", parent := "v" }
  «export» := { state := .published, volumeId := some "c1", node := some "a", localId := some "c1" }

def mirrorAndClone : AppState where
  fed := { volumes := ((∅ : KeyMap DistVolume).insert "v" fencedMirror).insert "c" servedClone }
  answered := [⟨"a", "v-mirror", "s"⟩, ⟨"a", "c", "c1"⟩]

theorem mirrorAndClone_volumes {n : String} {v : DistVolume} (h : mirrorAndClone.fed.volumes[n]? = some v) :
    n = "c" ∧ v = servedClone ∨ n = "v" ∧ v = fencedMirror := by
  simp only [mirrorAndClone, KeyMap.get_insert] at h
  split at h
  · exact .inl ⟨Eq.symm ‹_›, (Option.some.inj h).symm⟩
  · split at h
    · exact .inr ⟨Eq.symm ‹_›, (Option.some.inj h).symm⟩
    · simp at h

theorem quiescent_mirrorAndClone : Quiescent mirrorAndClone where
  named n v h := by
    rcases mirrorAndClone_volumes h with ⟨rfl, rfl⟩ | ⟨rfl, rfl⟩ <;> rfl
  spawned := rfl
  copies := rfl
  undertakings := rfl
  publishes := rfl

theorem genuine_mirrorAndClone {n : String} {v : DistVolume} (h : mirrorAndClone.fed.volumes[n]? = some v) :
    v.Genuine mirrorAndClone.answered := by
  rcases mirrorAndClone_volumes h with ⟨rfl, rfl⟩ | ⟨rfl, rfl⟩
  · refine ⟨fun id hid => ⟨"a", rfl, ?_⟩, fun hs => by cases hs⟩
    obtain rfl := Option.some.inj hid
    exact List.mem_cons_of_mem _ (List.mem_singleton_self _)
  · refine ⟨fun id hid => ⟨"a", rfl, ?_⟩, fun hs => by cases hs⟩
    obtain rfl := Option.some.inj hid
    exact List.mem_cons_self

/-- An engine that holds the array, with what is served from it. -/
def acrossReply : Reply := { arrayReply with
  items := [{ id := some "s2", name := some "v-mirror" }, { id := some "c2", name := some "c" }] }

/-- The head is moved onto b. -/
def moveHead {ops : VolumeOp → Prop} (hops : ops (.promote "v" "b" 2)) (n : Nat) : List (VolumeMove ops) :=
  .env (nodesOf [("a", false), ("b", true)]) :: .start ⟨.promote "v" "b" 2, hops⟩ ::
    List.replicate n (.run 0 acrossReply)

def allUp (w _ : AppState) : Bool := w.publishes.all (·.up)

theorem unstrayed_of_allUp {w w' : AppState} (h : allUp w w' = true) : Unstrayed "c" w w' := fun p hp _ hup => by
  rw [List.all_eq_true.mp h p hp] at hup
  cases hup

/-- The id of a volume's served volume, where it is from node. -/
def AppState.servedAs (w : AppState) (name node : String) : Option String :=
  (w.fed.volumes[name]?).bind fun v => if v.export.node = some node then v.export.volumeId else none

theorem servedAs_some {w : AppState} {name node id : String} (h : w.servedAs name node = some id) :
    ∃ v, w.fed.volumes[name]? = some v ∧ v.export.node = some node ∧ v.export.volumeId = some id := by
  obtain ⟨v, hv, h⟩ := Option.bind_eq_some_iff.mp h
  split at h
  · exact ⟨v, hv, ‹_›, h⟩
  · cases h

/-- The clone is published again on the new head. -/
theorem exports_given_small : ∃ (p : Pool Reply AppState Fault) (v : DistVolume),
    (operations plainConfig VolumeOp.serves).Run (Unstrayed "c") ⟨mirrorAndClone, []⟩ p ∧
    p.state.fed.volumes["c"]? = some v ∧ v.export.volumeId = some "c2" ∧
    ∃ node, v.export.node = some node ∧ ⟨node, servedName v, "c2"⟩ ∈ p.state.answered := by
  have hr : (operations plainConfig VolumeOp.serves).Run (Unstrayed "c") ⟨mirrorAndClone, []⟩
      ((operations plainConfig VolumeOp.serves).final allUp ⟨mirrorAndClone, []⟩ (moveHead trivial 16)) :=
    System.run_final (fun _ _ => unstrayed_of_allUp) (by decide +kernel)
  obtain ⟨v, hv, -, hid⟩ := servedAs_some (show ((operations plainConfig VolumeOp.serves).final allUp
    ⟨mirrorAndClone, []⟩ (moveHead trivial 16)).state.servedAs "c" "b" = some "c2" by decide +kernel)
  exact ⟨_, v, hr, hv, hid, exports_given quiescent_mirrorAndClone (fun _ => genuine_mirrorAndClone) hr hv hid⟩

/-- Publishing, promoting and republishing. -/
def VolumeOp.republishes : VolumeOp → Prop
  | .publish _ | .promote .. | .republishOn _ => True
  | _ => False

/-- b is lost before the clone is published there. -/
def moveThenLose : Pool Reply AppState Fault :=
  (operations plainConfig VolumeOp.republishes).final (fun _ _ => true) ⟨mirrorAndClone, []⟩
    (moveHead trivial 12 ++ .env (nodesOf [("a", false), ("b", false)]) :: List.replicate 2 (.run 0 acrossReply))

/-- The clone's record names the new head beside the id that it has on the old
one. -/
theorem not_exports_given : ¬ ∀ (w : AppState) (p : Pool Reply AppState Fault) (name : String) (v : DistVolume)
    (id : String), Quiescent w → (∀ v, w.fed.volumes[name]? = some v → v.Genuine w.answered) →
    (operations plainConfig VolumeOp.republishes).Run (fun _ _ => True) ⟨w, []⟩ p →
    p.state.fed.volumes[name]? = some v → v.export.volumeId = some id →
    ∃ node, v.export.node = some node ∧ ⟨node, servedName v, id⟩ ∈ p.state.answered := by
  intro h
  have hr : (operations plainConfig VolumeOp.republishes).Run (fun _ _ => True) ⟨mirrorAndClone, []⟩ moveThenLose :=
    System.run_final (fun _ _ _ => trivial) (by decide +kernel)
  obtain ⟨v, hv, hnode, hid⟩ := servedAs_some (show moveThenLose.state.servedAs "c" "b" = some "c1" by decide +kernel)
  obtain ⟨node, hnode', hm⟩ := h _ _ _ _ _ quiescent_mirrorAndClone (fun _ => genuine_mirrorAndClone) hr hv hid
  obtain rfl := Option.some.inj (hnode.symm.trans hnode')
  have hnone : moveThenLose.state.answered.all (fun x => x.node ≠ "b" ∨ x.id ≠ "c1") = true := by decide +kernel
  have := of_decide_eq_true (List.all_eq_true.mp hnone _ hm)
  simp at this

end StormStorage
