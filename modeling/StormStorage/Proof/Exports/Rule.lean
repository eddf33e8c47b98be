import StormStorage.Proof.Exports.Program

/-!
# What holds of a volume's export in every run

`Meets I Q name` says `I` of the record of a volume and of the copies that are
to be written back, and `Q` of the publishes that have read it. An `ExportRule`
is what each of the writes asks of `I` and `Q`; what follows every rule is kept
by every step (`Meets.step`).

* `Meets.put`, `Meets.erase`, `Meets.endPublish`: the writes, one by one.
-/

namespace StormStorage

open Await Task Orchestrate

/-- Which served volume an export is about. -/
def Export.about (ex : Export) : Option String × Option String × Bool := (ex.volumeId, ex.node, ex.adopted)

theorem HostEdit.about {ex ex' : Export} (h : HostEdit ex ex') : ex'.about = ex.about := by
  cases h <;> rfl

/-- `I` of the volume's record and its copies, and `Q` of its publishes. -/
structure Meets (I : DistVolume → Prop) (Q : Publish → Prop) (name : String) (x : Exposed) : Prop where
  record : ∀ v, x.volumes[name]? = some v → I v
  copy : ∀ c, x.copies[name]? = some c → I c
  publishes : ∀ p ∈ x.publishes, p.volume.name = name → Q p

/-- What the writes of a step ask. -/
structure ExportRule (I : DistVolume → Prop) (Q : Publish → Prop) (name : String) (w w' : AppState) : Prop where
  edited : ∀ v v', I v → Unserving v v' → I v'
  /-- The hosts, the state or the message of an export. -/
  «export» : ∀ v ex, I v → ex.about = v.export.about → I { v with «export» := ex }
  forgot : ∀ v v', w.fed.volumes[name]? = some v → forgetServed name v = .ok v' → w'.fed.volumes[name]? = some v' →
    I v → I v'
  began : ∀ (p : Publish) place, serveAt w.fed p.volume = .ok place → p.node = place.node →
    p.volumeId = place.volumeId → I p.volume → Q p
  unreached : ∀ p ∈ w.publishes, p.volume.name = name → p.up = false → p ∉ w'.publishes → Q p →
    ∀ v message, w.fed.volumes[name]? = some v → I v →
    I { v with «export» := { v.export with state := .failed, message := message, node := some p.node } }
  recorded : ∀ p ∈ w.publishes, p.volume.name = name → p ∉ w'.publishes → Q p →
    ∀ v (s : Served) (place : ServeAt) now, w.fed.volumes[name]? = some v → place.node = p.node →
    Finds w p s.serving → I v → I (s.record name p.volume place now v)
  promoted : ∀ c vol target up served, c.name = name → c.mirrored → RelabelledFrom c vol →
    (∀ id, served = some id → ⟨target, name ++ mirrorSuffix, id⟩ ∈ w.answered) → I c →
    I (Head.promoted target up served vol)
  reassembled : ∀ c vol head array pick id, c.name = name → c.mirrored → c.head = some head → RelabelledFrom c vol →
    ⟨head, name ++ mirrorSuffix, id⟩ ∈ w.answered → I c → I (Head.reassembled head array pick (some id) vol)
  lost : ∀ c vol head array pick, c.mirrored → RelabelledFrom c vol → I c →
    I (Head.reassembled head array pick none vol)

section

variable {I I' : DistVolume → Prop} {Q Q' : Publish → Prop} {name n : String} {x : Exposed} {v : DistVolume}
  {w w' : AppState}

namespace Meets

theorem mono (h : Meets I Q name x) (hI : ∀ v, I v → I' v) (hQ : ∀ p, Q p → Q' p) : Meets I' Q' name x :=
  ⟨fun v hv => hI v (h.record v hv), fun c hc => hI c (h.copy c hc), fun p hp hn => hQ p (h.publishes p hp hn)⟩

theorem put (h : Meets I Q name x) (hv : n = name → I v) : Meets I Q name (x.put n v) := by
  refine ⟨fun u hu => ?_, h.copy, h.publishes⟩
  simp only [Exposed.put, KeyMap.get_insert] at hu
  split at hu
  · rename_i he
    rw [← Option.some.inj hu]
    exact hv he
  · exact h.record u hu

theorem erase (h : Meets I Q name x) : Meets I Q name { x with copies := x.copies.erase n } := by
  refine ⟨h.record, fun u hu => ?_, h.publishes⟩
  dsimp only at hu
  rw [KeyMap.get_erase] at hu
  split at hu
  · cases hu
  · exact h.copy u hu

theorem endPublish {t : Nat} (h : Meets I Q name x) : Meets I Q name (x.endPublish t) :=
  ⟨h.record, h.copy, fun p hp => h.publishes p (List.mem_filter.mp hp).1⟩

theorem note {e : Event} (h : Meets I Q name x) : Meets I Q name (x.note e) := ⟨h.record, h.copy, h.publishes⟩

end Meets

/-- A publish that came to its end is not under way any more. -/
theorem notMem_ended {p : Publish} {n : String} {v : DistVolume}
    (he : w'.exposed = (w.exposed.endPublish p.task).put n v) : p ∉ w'.publishes := fun hm => by
  have hm : p ∈ w'.exposed.publishes := hm
  rw [he] at hm
  exact of_decide_eq_true (List.mem_filter.mp hm).2 rfl

theorem Meets.step (h : Meets I Q name w.exposed) (hr : ExportRule I Q name w w') (hs : ServeStep w w') :
    Meets I Q name w'.exposed := by
  cases hs with
  | unseen he => exact he ▸ h
  | @copied m c hv he =>
    refine he ▸ ⟨h.record, fun u hu => ?_, h.publishes⟩
    rw [KeyMap.get_insert] at hu
    split at hu
    · rename_i hm
      subst hm
      rw [← Option.some.inj hu]
      exact h.record c hv
    · exact h.copy u hu
  | letGo he => exact he ▸ h.erase
  | edited hv hun he =>
    refine he ▸ h.put fun hn => ?_
    subst hn
    exact hr.edited _ _ (h.record _ hv) hun
  | hosts hv hedit he =>
    refine he ▸ h.put fun hn => ?_
    subst hn
    exact hr.export _ _ (h.record _ hv) hedit.about
  | @forgot m v v' hv hf he =>
    refine he ▸ h.put fun hn => ?_
    subst hn
    have hv' : w'.exposed.volumes[m]? = some v' := by
      rw [he]
      exact KeyMap.get_insert_self ..
    exact hr.forgot v v' hv hf hv' (h.record v hv)
  | revoking hv he =>
    refine he ▸ h.put fun hn => ?_
    subst hn
    exact hr.export _ _ (h.record _ hv) rfl
  | dropped he =>
    refine he ▸ ⟨fun u hu => ?_, h.copy, h.publishes⟩
    rw [KeyMap.get_erase] at hu
    split at hu
    · cases hu
    · exact h.record u hu
  | began hready hnode hvol _ he =>
    refine he ▸ ⟨h.record, h.copy, fun q hq hn => ?_⟩
    rcases List.mem_append.mp hq with hq | hq
    · exact h.publishes q hq hn
    · obtain rfl := List.mem_singleton.mp hq
      subst hn
      obtain ⟨hv, -, -, hplace⟩ := publishReady_ok hready
      exact hr.began q _ hplace hnode hvol (h.record _ hv)
  | missing he => exact he ▸ h.endPublish
  | @unreached p v message hp hup hv he =>
    refine he ▸ h.endPublish.put fun hn => ?_
    subst hn
    exact hr.unreached p hp rfl hup (notMem_ended he) (h.publishes p hp rfl) v message hv (h.record v hv)
  | @recorded p v s place now hp hv hnode hfinds he =>
    refine he ▸ h.endPublish.put fun hn => ?_
    subst hn
    exact hr.recorded p hp rfl (notMem_ended he) (h.publishes p hp rfl) v s place now hv hnode hfinds (h.record v hv)
  | pinned _ _ _ he => exact he ▸ h.note
  | attached _ he => exact he ▸ h.note
  | attachedHost _ _ he => exact he ▸ ⟨h.record, h.copy, h.publishes⟩
  | withdrew he => exact he ▸ ⟨h.record, h.copy, h.publishes⟩
  | @stayed m c legs hc _ _ hlegs he =>
    refine he ▸ (h.put fun hn => ?_).erase
    subst hn
    exact hr.edited c _ (h.copy c hc) ⟨rfl, rfl, rfl, rfl, rfl, hlegs⟩
  | promoted hc hname hup hvol hacross he =>
    refine he ▸ (h.put fun hn => ?_).erase
    subst hn
    exact hr.promoted _ _ _ _ _ hname hup hvol hacross (h.copy _ hc)
  | reassembled hc hname hup hhead hvol hm he =>
    refine he ▸ (h.put fun hn => ?_).erase
    subst hn
    exact hr.reassembled _ _ _ _ _ _ hname hup hhead hvol hm (h.copy _ hc)
  | lost hc _ hup _ hvol he =>
    refine he ▸ (h.note.put fun hn => ?_).erase
    subst hn
    exact hr.lost _ _ _ _ _ hup hvol (h.copy _ hc)
  | unserved hv he =>
    refine he ▸ h.note.put fun hn => ?_
    subst hn
    exact hr.export _ _ (h.record _ hv) rfl
  | noted he => exact he ▸ h.note

/-- What a step notes: that a publish asks for its served volume to be made, or
something else. -/
theorem noted_step (hs : ServeStep w w') : w'.exposed.noted = w.exposed.noted ∨
    (∃ p ∈ w.publishes, p.volumeId = none ∧ ¬ p.adopts ∧
      w'.exposed.noted = w.exposed.noted ++ [.pinned (p.volume.name ++ mirrorSuffix)]) ∨
    ∃ e, (∀ n, e ≠ .pinned n) ∧ w'.exposed.noted = w.exposed.noted ++ [e] := by
  have hother : ∀ e, (∀ n, e ≠ .pinned n) → w'.exposed.noted = w.exposed.noted ++ [e] → ∃ e, (∀ n, e ≠ .pinned n) ∧
      w'.exposed.noted = w.exposed.noted ++ [e] := fun e hne he => ⟨e, hne, he⟩
  cases hs with
  | pinned hp hnone hadopts he => exact .inr (.inl ⟨_, hp, hnone, hadopts, by rw [he]; rfl⟩)
  | @attached p _ he =>
    exact .inr (.inr (hother (.served p.volume.name none) (fun _ h => by cases h) (by rw [he]; rfl)))
  | @attachedHost p host _ _ he =>
    exact .inr (.inr (hother (.served p.volume.name (some host.hostNqn)) (fun _ h => by cases h) (by rw [he]; rfl)))
  | @lost m _ _ _ _ _ _ _ _ _ _ he =>
    exact .inr (.inr (hother (.missed m) (fun _ h => by cases h) (by rw [he]; rfl)))
  | @unserved m _ _ _ he => exact .inr (.inr (hother (.missed m) (fun _ h => by cases h) (by rw [he]; rfl)))
  | @noted m he => exact .inr (.inr (hother (.missed m) (fun _ h => by cases h) (by rw [he]; rfl)))
  | unseen he => exact .inl (by rw [he])
  | copied _ he => exact .inl (by rw [he])
  | letGo he => exact .inl (by rw [he])
  | edited _ _ he => exact .inl (by rw [he]; rfl)
  | hosts _ _ he => exact .inl (by rw [he]; rfl)
  | forgot _ _ he => exact .inl (by rw [he]; rfl)
  | revoking _ he => exact .inl (by rw [he]; rfl)
  | dropped he => exact .inl (by rw [he])
  | began _ _ _ _ he => exact .inl (by rw [he])
  | missing he => exact .inl (by rw [he]; rfl)
  | unreached _ _ _ he => exact .inl (by rw [he]; rfl)
  | recorded _ _ _ _ he => exact .inl (by rw [he]; rfl)
  | withdrew he => exact .inl (by rw [he])
  | stayed _ _ _ _ he => exact .inl (by rw [he]; rfl)
  | promoted _ _ _ _ _ he => exact .inl (by rw [he]; rfl)
  | reassembled _ _ _ _ _ _ he => exact .inl (by rw [he]; rfl)

/-- Where nothing is under way, what is required of a record is all there is. -/
theorem Quiescent.meets {I : DistVolume → Prop} {Q : Publish → Prop} (h : Quiescent w)
    (hw : ∀ v, w.fed.volumes[name]? = some v → I v) : Meets I Q name w.exposed := by
  refine ⟨hw, fun c hc => ?_, fun p hp => ?_⟩
  · rw [show w.exposed.copies = ∅ from h.copies, KeyMap.get_empty] at hc
    cases hc
  · rw [show w.exposed.publishes = [] from h.publishes] at hp
    cases hp

end

/-- No publish of the volume is under way, and no promote or reassembly that
has read its record. -/
def Unattended (name : String) (w : AppState) : Prop :=
  (∀ p ∈ w.publishes, p.volume.name ≠ name) ∧ w.copies[name]? = none

/-! ## What is written -/

section

variable {n name : String} {v v' : DistVolume} {place : ServeAt}

/-- A volume with an array is served from its head, as what is recorded there. -/
theorem serveOwn_mirrored {fed : FedState} (hup : v.mirrored) (h : serveOwn fed v = .ok place) :
    v.head = some place.node ∧
      place.volumeId = if v.export.node = some place.node then v.export.volumeId else none := by
  unfold serveOwn at h
  rcases hup with hup | hup
  all_goals
    rw [hup] at h
    dsimp only at h
    split at h
    · cases h
    · cases h
    · obtain ⟨-, -, h⟩ := check_bind.mp h
      obtain rfl := Except.ok.inj h
      exact ⟨‹_›, rfl⟩

theorem mirrored_promoted (target : String) (up : List String) (id : Option String) (v : DistVolume) :
    (Head.promoted target up id v).mirrored := by
  unfold DistVolume.mirrored Head.promoted
  dsimp only
  split
  · exact .inl rfl
  · exact .inr rfl

theorem mirrored_reassembled (head array : String) (pick : Leg → Bool) (id : Option String) (v : DistVolume) :
    (Head.reassembled head array pick id v).mirrored := by
  unfold DistVolume.mirrored Head.reassembled
  dsimp only
  split
  · exact .inl rfl
  · exact .inr rfl

/-- A served volume that did not come back leaves what the export is about. -/
theorem about_lost (head array : String) (pick : Leg → Bool) (v : DistVolume) :
    (Head.reassembled head array pick none v).export.about = v.export.about := by
  unfold Head.reassembled Head.servedAgain
  dsimp only
  split <;> rfl

/-- The served volume that a publish records. -/
theorem about_record {s : Served} {vol : DistVolume} {now : SystemTime} :
    (s.record n vol place now v).export.about = (s.serving.volumeId, some place.node, s.serving.adopted) := by
  unfold Served.record Served.export
  dsimp only
  split <;> rfl

end

end StormStorage
