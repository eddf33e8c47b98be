import StormStorage.Proof.Exports.Rule
import StormStorage.Proof.Given

/-!
# Served data is not made anew

A publish asks for a served volume to be made where it has read neither an id
nor that one came across with the array. Once it is recorded, that is read
unless the record is about another node than the volume's head: a publish that
ends after the head was moved writes so, and one that began before has read
none. Where neither happens, the served volume is not asked for again until a
recreate forgets it (`remade_only_asked`).

* `traced_rule`: what is known of a served volume is known of the head's;
* `retained_rule`: it stays known.
-/

namespace StormStorage

open Await Task Orchestrate

/-! ## What is known of a served volume -/

/-- Its id, or that it came across with the array. -/
def Export.known (ex : Export) : Prop := ex.volumeId.isSome ∨ ex.adopted = true

/-- The export is about the volume's head. -/
def DistVolume.servedHere (v : DistVolume) : Prop := ∃ head, v.head = some head ∧ v.export.node = some head

/-- A served volume that is known is one of the head's. -/
def DistVolume.Traced (v : DistVolume) : Prop := v.mirrored → v.export.known → v.servedHere

/-- A served volume that is known, of a volume with an array. -/
structure DistVolume.Retained (v : DistVolume) : Prop where
  mirrored : v.mirrored
  known : v.export.known
  here : v.servedHere

/-- The publish has read of a served volume. -/
def Publish.retains (p : Publish) : Prop := p.volumeId.isSome ∨ p.adopts

/-- The served volume of a volume with an array is recorded. -/
def HasServed (name : String) (w : AppState) : Prop :=
  ∃ v, w.fed.volumes[name]? = some v ∧ v.mirrored ∧ v.export.known

/-- The head is the node that a publish serves from when the publish ends. -/
def SteadyHead (name : String) (w w' : AppState) : Prop :=
  ∀ p ∈ w.publishes, p.volume.name = name → p ∉ w'.publishes →
    ∀ v, w.fed.volumes[name]? = some v → v.mirrored → v.head = some p.node

/-- No recreate forgets the served volume. -/
def Unasked (name : String) (w w' : AppState) : Prop :=
  ∀ v v', w.fed.volumes[name]? = some v → forgetServed name v = .ok v' → w'.fed.volumes[name]? ≠ some v'

/-- A step in which nothing overtakes a publish. -/
structure InTurn (name : String) (w w' : AppState) : Prop where
  head : SteadyHead name w w'
  /-- When the served volume is first recorded, nothing else is under way. -/
  alone : ¬ HasServed name w → HasServed name w' → Unattended name w'

/-- The times that a served volume was asked for. -/
def Event.makes (name : String) : Event → Bool
  | .pinned n => n = name ++ mirrorSuffix
  | _ => false

def AppState.makings (w : AppState) (name : String) : List Event := w.log.filter (·.makes name)

section

variable {name n : String} {v v' : DistVolume} {w w' : AppState} {place : ServeAt}

theorem known_about {ex ex' : Export} (h : ex'.about = ex.about) : ex'.known ↔ ex.known := by
  have hid : ex'.volumeId = ex.volumeId := congrArg Prod.fst h
  have hadopted : ex'.adopted = ex.adopted := congrArg (fun a => a.2.2) h
  rw [Export.known, Export.known, hid, hadopted]

theorem here_about (hh : v'.head = v.head) (h : v'.export.about = v.export.about) (hv : v.servedHere) :
    v'.servedHere := by
  obtain ⟨head, hhead, hnode⟩ := hv
  exact ⟨head, hh.trans hhead, (congrArg (fun a => a.2.1) h).trans hnode⟩

/-- An edit that keeps the array, its head and what the export is about. -/
theorem DistVolume.Traced.keep (h : v.Traced) (ha : v'.mirrored → v.mirrored) (hh : v'.head = v.head)
    (hex : v'.export.about = v.export.about) : v'.Traced := fun hup hk =>
  here_about hh hex (h (ha hup) ((known_about hex).mp hk))

theorem DistVolume.Retained.keep (h : v.Retained) (ha : v'.mirrored) (hh : v'.head = v.head)
    (hex : v'.export.about = v.export.about) : v'.Retained :=
  ⟨ha, (known_about hex).mpr h.known, here_about hh hex h.here⟩

theorem mirrored_congr (h : v'.assembly = v.assembly) : v'.mirrored ↔ v.mirrored := by
  rw [DistVolume.mirrored, DistVolume.mirrored, h]

theorem forgetServed_unknown (h : forgetServed n v = .ok v') : ¬ v'.export.known := by
  unfold forgetServed at h
  split at h
  · cases h
  · split at h
    · cases h
    · obtain rfl := Except.ok.inj h
      rintro (hid | hadopted)
      · cases hid
      · cases hadopted

/-! ## Steps -/

/-- What is known of a served volume is known of the head's. -/
theorem traced_rule (hok : SteadyHead name w w') : ExportRule DistVolume.Traced (fun _ => True) name w w' where
  edited v v' hv hun := hv.keep (mirrored_congr hun.assembly).mp hun.head (by rw [hun.export])
  «export» v ex hv hex := hv.keep id rfl hex
  forgot v v' _ hf _ _ := fun _ hk => absurd hk (forgetServed_unknown hf)
  began _ _ _ _ _ _ := trivial
  unreached p hp hn _ hended _ v message hvol _ := fun hup _ => ⟨p.node, hok p hp hn hended v hvol hup, rfl⟩
  recorded p hp hn hended _ v s place now hvol hnode _ _ := fun hup _ => by
    have habout : (s.record name p.volume place now v).export.about = (s.serving.volumeId, some place.node,
      s.serving.adopted) := about_record
    refine ⟨p.node, hok p hp hn hended v hvol hup, ?_⟩
    rw [← hnode]
    exact congrArg (fun a => a.2.1) habout
  promoted c vol target up across _ _ hvol _ _ := fun _ _ => ⟨target, rfl, rfl⟩
  reassembled c vol head array pick id _ _ hhead hvol _ _ := by
    obtain ⟨legs, -, rfl⟩ := hvol
    exact fun _ _ => ⟨head, hhead, rfl⟩
  lost c vol head array pick hup hvol hc := by
    obtain ⟨legs, -, rfl⟩ := hvol
    exact hc.keep (fun _ => hup) rfl (about_lost ..)

/-- A served volume that is known stays known, and is read by every publish. -/
theorem retained_rule (hok : SteadyHead name w w') (hasked : Unasked name w w') :
    ExportRule DistVolume.Retained Publish.retains name w w' where
  edited v v' hv hun := hv.keep ((mirrored_congr hun.assembly).mpr hv.mirrored) hun.head (by rw [hun.export])
  «export» v ex hv hex := hv.keep hv.mirrored rfl hex
  forgot v v' hv hf hv' _ := absurd hv' (hasked v v' hv hf)
  began p place hplace hnode hvol hv := by
    have hown : serveAt w.fed p.volume = serveOwn w.fed p.volume := by
      unfold serveAt
      rcases hv.mirrored with h | h <;> rw [h]
    rw [hown] at hplace
    obtain ⟨hhead, hid⟩ := serveOwn_mirrored hv.mirrored hplace
    obtain ⟨head, hhead', hhere⟩ := hv.here
    obtain rfl := Option.some.inj (hhead.symm.trans hhead')
    rw [if_pos hhere] at hid
    rcases hv.known with hk | hk
    · left
      rw [hvol, hid]
      exact hk
    · right
      exact ⟨hk, by rw [hnode]; exact hhere⟩
  unreached p hp hn _ hended _ v message hvol hv :=
    ⟨hv.mirrored, hv.known, p.node, hok p hp hn hended v hvol hv.mirrored, rfl⟩
  recorded p hp hn hended hread v s place now hvol hnode hfinds hv := by
    have habout : (s.record name p.volume place now v).export.about = (s.serving.volumeId, some place.node,
      s.serving.adopted) := about_record
    refine ⟨hv.mirrored, ?_, p.node, hok p hp hn hended v hvol hv.mirrored, ?_⟩
    · rcases hread with hid | hadopts
      · obtain ⟨id, hid⟩ := Option.isSome_iff_exists.mp hid
        left
        rw [show (s.record name p.volume place now v).export.volumeId = some id from
          (congrArg Prod.fst habout).trans (hfinds.kept id hid)]
        rfl
      · right
        exact (congrArg (fun a => a.2.2) habout).trans (hfinds.adopted hadopts)
    · rw [← hnode]
      exact congrArg (fun a => a.2.1) habout
  promoted c vol target up across _ _ hvol _ _ := ⟨mirrored_promoted .., .inr rfl, target, rfl, rfl⟩
  reassembled c vol head array pick id _ _ hhead hvol _ _ := by
    obtain ⟨legs, -, rfl⟩ := hvol
    exact ⟨mirrored_reassembled .., .inl rfl, head, hhead, rfl⟩
  lost c vol head array pick hup hvol hc := by
    obtain ⟨legs, -, rfl⟩ := hvol
    exact hc.keep (mirrored_reassembled ..) rfl (about_lost ..)

theorem makings_exposed (w : AppState) : w.makings name = w.exposed.noted.filter (·.makes name) := by
  rw [AppState.makings, AppState.exposed, List.filter_filter]
  refine List.filter_congr fun e _ => ?_
  cases e <;> simp [Event.makes, Event.serving]

/-- Where every publish has read of its served volume, none is asked for. -/
theorem makings_step (h : Meets DistVolume.Retained Publish.retains name w.exposed) (hs : ServeStep w w') :
    w'.makings name = w.makings name := by
  rw [makings_exposed, makings_exposed]
  rcases noted_step hs with he | ⟨p, hp, hnone, hadopts, he⟩ | ⟨e, hne, he⟩
  · rw [he]
  · have hn : p.volume.name ≠ name := fun hn => by
      rcases h.publishes p hp hn with hid | had
      · rw [hnone] at hid
        cases hid
      · exact hadopts had
    rw [he, List.filter_append]
    simp [Event.makes, String.append_left_inj, hn]
  · have hother : e.makes name = false := by
      cases e with
      | pinned n => exact absurd rfl (hne n)
      | _ => rfl
    rw [he, List.filter_append]
    simp [hother]

/-! ## Runs -/

variable {cfg : Config} {p p' : Pool Reply AppState Fault}

theorem traced_run (h₀ : Quiescent w) (hw : ∀ v, w.fed.volumes[name]? = some v → v.Traced)
    (h : (operations cfg VolumeOp.serves).Run (InTurn name) ⟨w, []⟩ p) :
    Meets DistVolume.Traced (fun _ => True) name p.state.exposed := by
  induction h with
  | refl => exact h₀.meets hw
  | step m h hm hok ih =>
    rcases serve_step (fun _ h => h) (kept_serves (fun _ h => h) h₀.stepInv rfl h) hm with he | ⟨-, hs⟩
    · rw [he]
      exact ih
    · exact ih.step (traced_rule hok.head) hs

/-- Once it is recorded, the served volume is known to all. -/
theorem retained_run (h₀ : Quiescent w) (hw : ∀ v, w.fed.volumes[name]? = some v → v.Traced)
    (h : (operations cfg VolumeOp.serves).Run (InTurn name) ⟨w, []⟩ p) (hserved : HasServed name p.state) :
    Meets DistVolume.Retained Publish.retains name p.state.exposed := by
  induction h with
  | refl =>
    obtain ⟨v, hv, hup, hk⟩ := hserved
    refine h₀.meets fun u hu => ?_
    obtain rfl := Option.some.inj (hv.symm.trans hu)
    exact ⟨hup, hk, hw v hv hup hk⟩
  | @step q q' m h hm hok ih =>
    rcases serve_step (fun _ h => h) (kept_serves (fun _ h => h) h₀.stepInv rfl h) hm with he | ⟨-, hs⟩
    · rw [he] at hserved ⊢
      exact ih hserved
    · by_cases hbefore : HasServed name q.state
      · refine (ih hbefore).step (retained_rule hok.head fun v v' _ hf hv' => ?_) hs
        obtain ⟨u, hu, -, hk⟩ := hserved
        obtain rfl := Option.some.inj (hu.symm.trans hv')
        exact forgetServed_unknown hf hk
      · obtain ⟨hfree, hnone⟩ := hok.alone hbefore hserved
        obtain ⟨v, hv, hup, hk⟩ := hserved
        refine ⟨fun u hu => ?_, fun c hc => ?_, fun p hp hn => absurd hn (hfree p hp)⟩
        · obtain rfl := Option.some.inj (hv.symm.trans hu)
          exact ⟨hup, hk, (traced_run h₀ hw (h.step m hm hok)).record v hv hup hk⟩
        · cases hnone.symm.trans hc

/-- Once the served volume of a volume with an array is recorded, it is not asked
for again until a recreate forgets it, in every run in which nothing overtakes a
publish. -/
theorem remade_only_asked (h₀ : Quiescent w) (hw : ∀ v, w.fed.volumes[name]? = some v → v.Traced)
    (h : (operations cfg VolumeOp.serves).Run (InTurn name) ⟨w, []⟩ p) (hv : p.state.fed.volumes[name]? = some v)
    (hup : v.mirrored) (hid : v.export.volumeId.isSome)
    (h' : (operations cfg VolumeOp.serves).Run (fun w w' => SteadyHead name w w' ∧ Unasked name w w') p p') :
    p'.state.makings name = p.state.makings name := by
  suffices hrun : (operations cfg VolumeOp.serves).Run (SteadyHead name) ⟨w, []⟩ p' ∧
      Meets DistVolume.Retained Publish.retains name p'.state.exposed ∧
      p'.state.makings name = p.state.makings name from hrun.2.2
  induction h' with
  | refl => exact ⟨h.mono fun _ _ hok => hok.head, retained_run h₀ hw h ⟨v, hv, hup, .inl hid⟩, rfl⟩
  | step m _ hm hok ih =>
    obtain ⟨h, hkept, hmade⟩ := ih
    refine ⟨h.step m hm hok.1, ?_⟩
    rcases serve_step (fun _ h => h) (kept_serves (fun _ h => h) h₀.stepInv rfl h) hm with he | ⟨-, hs⟩
    · rw [he]
      exact ⟨hkept, hmade⟩
    · exact ⟨hkept.step (retained_rule hok.1 hok.2) hs, (makings_step hkept hs).trans hmade⟩

end

theorem traced_mirrorAndClone {n : String} {v : DistVolume} (h : mirrorAndClone.fed.volumes[n]? = some v) :
    v.Traced := by
  rcases mirrorAndClone_volumes h with ⟨rfl, rfl⟩ | ⟨rfl, rfl⟩
  · rintro (h | h) <;> cases h
  · exact fun _ _ => ⟨"a", rfl, rfl⟩

/-- What is published is served from the head, and is not gone. -/
def onHead (w _ : AppState) : Bool :=
  (w.fed.volumes["v"]?).all fun v =>
    ¬ v.export.gone ∧ w.publishes.all fun p => p.volume.name ≠ "v" ∨ v.head = some p.node

theorem onHead_ok {w w' : AppState} (h : onHead w w' = true) : SteadyHead "v" w w' ∧ Unasked "v" w w' := by
  refine ⟨fun p hp hn _ v hv _ => ?_, fun v v' hv hf => ?_⟩
  · rw [onHead, hv] at h
    have hp := of_decide_eq_true (List.all_eq_true.mp (of_decide_eq_true h).2 p hp)
    exact hp.resolve_left (not_not.mpr hn)
  · rw [onHead, hv] at h
    have hgone : ¬ v.export.gone = true := (of_decide_eq_true h).1
    rw [forgetServed, if_pos hgone] at hf
    cases hf

/-- The head moves, and the served volume that came across is published. -/
theorem remade_only_asked_small : ∃ p p' : Pool Reply AppState Fault,
    (operations plainConfig VolumeOp.serves).Run (InTurn "v") ⟨mirrorAndClone, []⟩ p ∧
    p.state.fed.volumes["v"]? = some fencedMirror ∧
    (operations plainConfig VolumeOp.serves).Run (fun w w' => SteadyHead "v" w w' ∧ Unasked "v" w w') p p' ∧
    p'.state.servedAs "v" "b" = some "s2" ∧ p'.state.makings "v" = p.state.makings "v" := by
  have hr : (operations plainConfig VolumeOp.serves).Run (fun w w' => SteadyHead "v" w w' ∧ Unasked "v" w w')
      ⟨mirrorAndClone, []⟩ ((operations plainConfig VolumeOp.serves).final onHead ⟨mirrorAndClone, []⟩
        (moveHead trivial 12)) := System.run_final (fun _ _ => onHead_ok) (by decide +kernel)
  have hv : mirrorAndClone.fed.volumes["v"]? = some fencedMirror := by decide +kernel
  exact ⟨_, _, .refl, hv, hr, by decide +kernel, remade_only_asked quiescent_mirrorAndClone
    (fun _ => traced_mirrorAndClone) .refl hv (.inl rfl) rfl hr⟩

/-- A publish begins on a, the head moves onto b, and the publish comes to its
end. -/
def publishOvertaken : Pool Reply AppState Fault :=
  (operations plainConfig VolumeOp.republishes).final (fun _ _ => true) ⟨mirrorAndClone, []⟩
    (.env (nodesOf [("a", true), ("b", true)]) :: .start ⟨.publish "v", trivial⟩ :: .run 0 acrossReply ::
      .env (nodesOf [("a", false), ("b", true)]) :: .start ⟨.promote "v" "b" 2, trivial⟩ ::
      List.replicate 16 (.run 1 acrossReply) ++ List.replicate 2 (.run 0 acrossReply))

/-- The record is about a again, and the next publish asks b for a new served
volume. -/
theorem not_remade_only_asked : ¬ ∀ (w : AppState) (p p' : Pool Reply AppState Fault) (name : String) (v : DistVolume),
    Quiescent w → (∀ v, w.fed.volumes[name]? = some v → v.Traced) →
    (operations plainConfig VolumeOp.republishes).Run (fun _ _ => True) ⟨w, []⟩ p →
    p.state.fed.volumes[name]? = some v → v.mirrored → v.export.volumeId.isSome →
    (operations plainConfig VolumeOp.republishes).Run (fun _ _ => True) p p' →
    p'.state.makings name = p.state.makings name := by
  intro h
  have hr : (operations plainConfig VolumeOp.republishes).Run (fun _ _ => True) ⟨mirrorAndClone, []⟩ publishOvertaken :=
    System.run_final (fun _ _ _ => trivial) (by decide +kernel)
  have hr' : (operations plainConfig VolumeOp.republishes).Run (fun _ _ => True) publishOvertaken
      ((operations plainConfig VolumeOp.republishes).final (fun _ _ => true) publishOvertaken
        (.start ⟨.publish "v", trivial⟩ :: List.replicate 2 (.run 2 acrossReply))) :=
    System.run_final (fun _ _ _ => trivial) (by decide +kernel)
  obtain ⟨v, hv, hnode, hid⟩ := servedAs_some (show publishOvertaken.state.servedAs "v" "a" = some "s" by decide +kernel)
  have hup : v.mirrored := by
    have hassembly : (publishOvertaken.state.fed.volumes["v"]?).all (fun v => v.assembly = .degraded) = true := by
      decide +kernel
    rw [hv] at hassembly
    exact .inr (of_decide_eq_true hassembly)
  have hmade := h _ _ _ "v" v quiescent_mirrorAndClone (fun _ => traced_mirrorAndClone) hr hv hup (by rw [hid]; rfl) hr'
  revert hmade
  decide +kernel

end StormStorage
