import StormStorage.Proof.Exports.Hushed
import StormStorage.Proof.Steps.Walk

/-!
# Publishing beside the others

The rules under which the operations that serve volumes are walked: a step
leaves the claims and the publishes of the others alone, and does what
`ServeStep` says. A publish keeps its place among the publishes under way from
the record it reads to the one it writes.

* `ServeSafe`, `Enduring`: a task beside the others, and what stays known to it;
* `serve_publish`: a publish, from its read to its end.
-/

namespace StormStorage

open Await Task Orchestrate

/-! ## The discipline -/

/-- What a step of `u` does, and leaves to the others. -/
structure ServeGuar (u : Option Nat) (w w' : AppState) : Prop where
  others : ∀ name t, u ≠ some t → Holds t name w → Holds t name w' ∧ w'.copies[name]? = w.copies[name]?
  publishes : ∀ p ∈ w.publishes, u ≠ some p.task → p ∈ w'.publishes
  answered : w.answered ⊆ w'.answered
  step : ServeStep w w'

@[reducible] def serveDiscipline : Discipline AppState where
  inv := StepInv
  ok _ _ := True
  guar := ServeGuar

/-- A task that goes on beside the others. -/
abbrev ServeSafe (t : Nat) {α : Type} (task : Async α) (Q : Except Fault α → AppState → Prop) (w : AppState) : Prop :=
  task.Safe serveDiscipline t Q w

/-- A step that leaves claims, copies and publishes alone. -/
structure Gentle (w w' : AppState) : Prop where
  replacing : w'.replacing = w.replacing
  spawned : w'.spawned = w.spawned
  copies : w'.copies = w.copies
  publishes : w'.publishes = w.publishes
  named : Named w.fed → Named w'.fed
  answered : w.answered ⊆ w'.answered
  step : ServeStep w w'

section

variable {α : Type} {b : Bool} {t : Nat} {u : Option Nat} {w w' : AppState} {name : String} {P : AppState → Prop}

theorem inv_of_eq (hr : w'.replacing = w.replacing) (hs : w'.spawned = w.spawned) (hn : Named w'.fed)
    (hi : StepInv w) : StepInv w' :=
  ⟨hn, by rw [hr, hs]; exact hi.handed, by rw [hs]; exact hi.once⟩

theorem others_of_eq (hr : w'.replacing = w.replacing) (hs : w'.spawned = w.spawned) (hc : w'.copies = w.copies)
    (name : String) (t : Nat) (hu : u ≠ some t) (hh : Holds t name w) :
    Holds t name w' ∧ w'.copies[name]? = w.copies[name]? :=
  ⟨hh.of_eq hr hs, by rw [hc]⟩

theorem Gentle.inv (h : Gentle w w') (hi : StepInv w) : StepInv w' :=
  inv_of_eq h.replacing h.spawned (h.named hi.named) hi

theorem Gentle.guar (h : Gentle w w') : ServeGuar u w w' where
  others := others_of_eq h.replacing h.spawned h.copies
  publishes p hp _ := by rwa [h.publishes]
  answered := h.answered
  step := h.step

theorem gentle_of_calls (hc : Calls b w w') (h : Hushed w w') : Gentle w w' where
  replacing := hc.replacing
  spawned := hc.spawned
  copies := hc.copies
  publishes := by rw [hc.eq]
  named hn := by rwa [hc.fed]
  answered := hc.answered
  step := .unseen (exposed_of_hushed hc h)

theorem gentle_calls {task : Async α} (hc : task.Only (Calls b)) (h : task.Only Hushed) : task.Only Gentle :=
  (hc.and h).mono fun _ _ h => gentle_of_calls h.1 h.2

theorem Gentle.refl (w : AppState) : Gentle w w := gentle_of_calls (.refl (b := true) w) (.refl w)

theorem gentle_get (f : AppState → α) : (Await.Task.get f : Async α).Only Gentle := only_atomic fun _ => .refl

/-- What stays known to task `t`: the others keep it, and its own gentle steps. -/
structure Enduring (t : Nat) (P : AppState → Prop) : Prop where
  stable : serveDiscipline.Stable t P
  gentle : ∀ w w', Gentle w w' → P w → P w'

/-- The same, and so do its own steps that leave claims and copies alone. -/
structure Firm (t : Nat) (P : AppState → Prop) : Prop where
  stable : serveDiscipline.Stable t P
  own : ∀ w w', w'.replacing = w.replacing → w'.spawned = w.spawned → w'.copies = w.copies →
    w.answered ⊆ w'.answered → P w → P w'

theorem Firm.enduring (hP : Firm t P) : Enduring t P :=
  ⟨hP.stable, fun w w' h hs => hP.own w w' h.replacing h.spawned h.copies h.answered hs⟩

theorem firm_const (p : Prop) : Firm t fun _ => p := ⟨Discipline.stable_const p, fun _ _ _ _ _ _ h => h⟩

theorem Firm.and {P' : AppState → Prop} (h : Firm t P) (h' : Firm t P') : Firm t fun w => P w ∧ P' w :=
  ⟨h.stable.and h'.stable, fun w w' hr hs hc ha hp =>
    ⟨h.own w w' hr hs hc ha hp.1, h'.own w w' hr hs hc ha hp.2⟩⟩

theorem firm_holds : Firm t (Holds t name) where
  stable _ _ _ hu _ _ hg hh := (hg.others name t hu hh).1
  own _ _ hr hs _ _ hh := hh.of_eq hr hs

/-- The claim, and the copy that is held under it. -/
def Guarding (t : Nat) (name : String) (c : DistVolume) (w : AppState) : Prop :=
  Holds t name w ∧ w.copies[name]? = some c

theorem firm_keeping {c : DistVolume} : Firm t (Guarding t name c) where
  stable _ _ _ hu _ _ hg hh :=
    let h := hg.others name t hu hh.1
    ⟨h.1, h.2.trans hh.2⟩
  own _ _ hr hs hc _ hh := ⟨hh.1.of_eq hr hs, by rw [hc]; exact hh.2⟩

theorem firm_told {x : IdAnswer} : Firm t fun w => x ∈ w.answered where
  stable _ _ _ _ _ _ hg hx := hg.answered hx
  own _ _ _ _ _ ha hx := ha hx

theorem Finds.later {p : Publish} {s : Serving} (h : Finds w p s) (ha : w.answered ⊆ w'.answered) : Finds w' p s :=
  ⟨h.kept, fun id hid => (h.told id hid).imp_right fun hx => ha hx, h.adopted⟩

theorem firm_finds {p : Publish} {s : Serving} : Firm t fun w => Finds w p s where
  stable _ _ _ _ _ _ hg h := h.later hg.answered
  own _ _ _ _ _ ha h := h.later ha

/-- A phase of gentle steps. -/
theorem serve_gentle {task : Async α} (hP : Enduring t P) (ht : task.Only Gentle) (hi : StepInv w) (hs : P w) :
    ServeSafe t task (fun _ s => P s) w :=
  (Safe.of_only ht hP.stable (fun _ _ hi hs h _ => ⟨h.inv hi, h.guar, hP.gentle _ _ h hs⟩) hi hs).mono fun _ _ h => h.2

/-- The same, with what it answers. -/
theorem serve_answers {task : Async α} {Q : α → Prop} (hP : Enduring t P) (ht : task.Only Gentle) (hq : task.Answers Q)
    (hi : StepInv w) (hs : P w) : ServeSafe t task (fun x s => P s ∧ ∀ a, x = .ok a → Q a) w :=
  Safe.of_answers ht hq hP.stable (fun _ _ hi hs h _ => ⟨h.inv hi, h.guar, hP.gentle _ _ h hs⟩) hi hs

theorem serve_ret {a : α} (hP : Enduring t P) (hi : StepInv w) (hs : P w) : ServeSafe t (.ret a) (fun _ s => P s) w :=
  Safe.ret hP.stable (fun _ _ h => h) hi hs

theorem serve_fail {e : Fault} (hP : Enduring t P) (hi : StepInv w) (hs : P w) :
    ServeSafe t (.fail e : Async α) (fun _ s => P s) w :=
  Safe.fail hP.stable (fun _ _ h => h) hi hs

theorem serve_forEach {β : Type} {xs : List β} {f : β → Async Unit} (hP : Enduring t P)
    (hf : ∀ x, ∀ w, StepInv w → P w → ServeSafe t (f x) (fun _ s => P s) w) (hi : StepInv w) (hs : P w) :
    ServeSafe t (.forEach xs f) (fun _ s => P s) w :=
  Safe.rounds hP.stable (fun x _ s hi hs => hf x s hi hs) hi hs

/-- A task whose outcome is not looked at. -/
theorem serve_ignore {task : Async α} (hP : Enduring t P) (ht : ServeSafe t task (fun _ s => P s) w) (hi : StepInv w) :
    ServeSafe t (do let _ ← task.attempt : Async Unit) (fun _ s => P s) w :=
  Safe.attempt_bind hi ht fun _ _ hi hs => serve_ret hP hi hs

theorem gentle_ofExcept (x : Except Fault α) : (Await.Task.ofExcept x : Async α).Only Gentle := only_ofExcept x

/-! ## Ids that engines answer -/

/-- A call that says which id a volume has. -/
theorem serve_told {node engine : String} {eff : Reply → AppState → AppState} {answer : Reply → AppState → Except Fault α}
    {idOf : α → Option String} (hP : Enduring t P) (hg : ∀ i w, Gentle w (eff i w))
    (hq : ∀ (i : Reply) w a id, i.wire = .answered → answer i w = .ok a → idOf a = some id →
      ⟨node, engine, id⟩ ∈ (eff i w).answered) (hi : StepInv w) (hs : P w) :
    ServeSafe t (call eff answer) (fun x s => P s ∧ ∀ a id, x = .ok a → idOf a = some id →
      ⟨node, engine, id⟩ ∈ s.answered) w := by
  refine safe_callOr hP.stable (fun x s s' u hu hi hi' hg h => ?_) (fun s i hi hs _ => ?_) hi hs
  · exact ⟨hP.stable s s' u hu hi hi' hg h.1, fun a id hx ha => hg.answered (h.2 a id hx ha)⟩
  · have hgent : Gentle s (i.wire.effect (eff i s) (id s)) := by
      cases i.wire with
      | answered => exact hg i s
      | refused => exact .refl s
      | lost => exact hg i s
    refine ⟨⟨hgent.inv hi, hgent.guar⟩, hP.gentle _ _ hgent hs, fun a x hx ha => ?_⟩
    cases hw : i.wire with
    | answered =>
      rw [hw] at hx
      exact hq i s a x hw hx ha
    | refused =>
      rw [hw] at hx
      cases hx
    | lost =>
      rw [hw] at hx
      cases hx

theorem gentle_heard (w : AppState) (node : String) (i : Reply) : Gentle w (w.heard node i) :=
  gentle_of_calls (b := true) (remote_heard w node i) (hushed_heard w node i)

theorem gentle_listed (w : AppState) (node name : String) (i : Reply) :
    Gentle w ((w.heard node i).noteUnlisted node name i) :=
  gentle_of_calls (b := true) ((remote_heard w node i).trans (remote_noteUnlisted _ node name i))
    ((hushed_heard w node i).trans (hushed_noteUnlisted _ node name i))

theorem mem_heard {node engine id : String} {i : Reply} {v : EngineItem} (hw : i.wire = .answered) (hv : v ∈ i.items)
    (hn : v.name = some engine) (hid : v.id = some id) : ⟨node, engine, id⟩ ∈ (w.heard node i).answered := by
  unfold AppState.heard
  rw [hw]
  refine List.mem_append_right _ (List.mem_filterMap.mpr ⟨v, hv, ?_⟩)
  simp [hn, hid]

/-- An id is answered for a name that is listed with it. -/
theorem oneNamed_mem {name id : String} {ids : List String} (h : Engine.oneNamed name ids = .ok id) : id ∈ ids := by
  unfold Engine.oneNamed at h
  split at h
  · rw [← Except.ok.inj h]
    exact List.mem_singleton_self _
  · cases h
  · cases h

/-- The one that is listed under the name. -/
theorem serve_localVolumeId {node engine : String} (hP : Enduring t P) (hi : StepInv w) (hs : P w) :
    ServeSafe t (Engine.localVolumeId node engine) (fun x s => P s ∧ ∀ id, x = .ok id →
      ⟨node, engine, id⟩ ∈ s.answered) w := by
  have hst (x : Except Fault String) : serveDiscipline.Stable t fun s =>
      P s ∧ ∀ id, x = .ok id → ⟨node, engine, id⟩ ∈ s.answered :=
    fun s s' u hu hi hi' hg h =>
      ⟨hP.stable s s' u hu hi hi' hg h.1, fun id hx => hg.answered (h.2 id hx)⟩
  have hfail {s : AppState} {e : Fault} (hi : StepInv s) (hs : P s) : ServeSafe t (.fail e : Async String)
      (fun x s => P s ∧ ∀ id, x = .ok id → ⟨node, engine, id⟩ ∈ s.answered) s :=
    Safe.fail (hst _) (fun _ _ h => h) hi ⟨hs, fun _ hx => by cases hx⟩
  refine Safe.step hP.stable (fun s i hi hs _ _ => ?_) hi hs
  have hgent := gentle_listed s node engine i
  have hi' := hgent.inv hi
  have hs' := hP.gentle _ _ hgent hs
  refine ⟨hi', hgent.guar, ?_⟩
  cases hw : i.wire with
  | answered =>
    dsimp only
    split
    · exact hfail hi' hs'
    · cases hx : Engine.oneNamed engine (i.items.filterMap fun v => if v.name = some engine then v.id else none) with
      | error e => exact hfail hi' hs'
      | ok id =>
        refine Safe.ret (hst _) (fun _ _ h => h) hi' ⟨hs', fun _ he => ?_⟩
        obtain rfl := Except.ok.inj he
        obtain ⟨v, hv, hvid⟩ := List.mem_filterMap.mp (oneNamed_mem hx)
        split at hvid
        · rw [AppState.noteUnlisted_answered]
          exact mem_heard hw hv ‹_› hvid
        · cases hvid
  | refused => exact hfail hi' hs'
  | lost => exact hfail hi' hs'

theorem serve_createVolume {node engine : String} {leg : Bool} (hP : Enduring t P) (hi : StepInv w) (hs : P w) :
    ServeSafe t (Engine.createVolume t node engine leg) (fun x s => P s ∧ ∀ item id, x = .ok item →
      item.id = some id → ⟨node, engine, id⟩ ∈ s.answered) w := by
  refine @serve_told _ _ _ _ node engine _ _ EngineItem.id hP (fun i w => ?_) (fun i w a id hw ha hid => ?_) hi hs
  · have hc := @remote_createOn true w t node engine leg (fun _ => rfl) i.made
    have hh := hushed_createOn w t node engine leg i.made
    dsimp only
    split
    · exact gentle_of_calls (hc.trans (remote_told _ _ _ _)) (hh.trans (hushed_told _ _ _ _))
    · exact gentle_of_calls (hc.trans (remote_noteLeft _ _ _)) (hh.trans (hushed_noteLeft _ _ _))
  · dsimp only at ha ⊢
    split at ha
    · rename_i id' hcreated
      rw [← Except.ok.inj ha] at hid
      obtain ⟨id₀, hid₀, rfl⟩ := Option.map_eq_some_iff.mp hid
      have hnames : i.names = true := by simp [Reply.names, hw, hid₀]
      rw [if_pos hnames, hcreated]
      exact List.mem_append_right _ (List.mem_singleton_self _)
    · cases ha

/-! ## Serving -/

/-- A publish of task `t` is under way. -/
def Publishing (P : AppState → Prop) (p : Publish) (w : AppState) : Prop := P w ∧ p ∈ w.publishes

/-- A call of a publish. -/
structure PublishCall (p : Publish) (w w' : AppState) : Prop where
  replacing : w'.replacing = w.replacing
  spawned : w'.spawned = w.spawned
  copies : w'.copies = w.copies
  publishes : w'.publishes = w.publishes
  fed : w'.fed = w.fed
  answered : w.answered ⊆ w'.answered
  step : p ∈ w.publishes → ServeStep w w'

variable {p : Publish} {place : ServeAt} {vol : DistVolume}

theorem PublishCall.gentle (h : PublishCall p w w') (hp : p ∈ w.publishes) : Gentle w w' where
  replacing := h.replacing
  spawned := h.spawned
  copies := h.copies
  publishes := h.publishes
  named hn := by rwa [h.fed]
  answered := h.answered
  step := h.step hp

theorem publishCall_of_calls (hc : Calls b w w') (hs : p ∈ w.publishes → ServeStep w w') : PublishCall p w w' :=
  ⟨hc.replacing, hc.spawned, hc.copies, by rw [hc.eq], hc.fed, hc.answered, hs⟩

theorem publishCall_hushed {task : Async α} (hc : task.Only (Calls b)) (h : task.Only Hushed) :
    task.Only (PublishCall p) :=
  (hc.and h).mono fun _ _ h => publishCall_of_calls h.1 fun _ => .unseen (exposed_of_hushed h.1 h.2)

theorem enduring_publishing (hP : Firm t P) (ht : p.task = t) : Enduring t (Publishing P p) where
  stable s s' u hu hi hi' hg h := ⟨hP.stable s s' u hu hi hi' hg h.1, hg.publishes p h.2 (by rwa [ht])⟩
  gentle s s' h hs := ⟨hP.enduring.gentle s s' h hs.1, by rw [h.publishes]; exact hs.2⟩

/-- A phase of a publish, with what it answers. -/
theorem serve_calls {task : Async α} {Q : α → Prop} (hP : Firm t P) (hpt : p.task = t) (ht : task.Only (PublishCall p))
    (hq : task.Answers Q) (hi : StepInv w) (hs : Publishing P p w) :
    ServeSafe t task (fun x s => Publishing P p s ∧ ∀ a, x = .ok a → Q a) w :=
  Safe.of_answers ht hq (enduring_publishing hP hpt).stable (fun _ _ hi hs h _ =>
    have hg := h.gentle hs.2
    ⟨hg.inv hi, hg.guar, (enduring_publishing hP hpt).gentle _ _ hg hs⟩) hi hs

theorem publishCall_attach : (Engine.attachVolume p.volume.name).Only (PublishCall p) :=
  only_callOr (fun _ w => publishCall_of_calls (remote_note (b := true) w _) fun hp =>
    .attached hp (exposed_noted rfl)) fun w => publishCall_of_calls (.refl (b := true) w) fun _ => .unseen rfl

theorem publishCall_attachHost {h : HostServe} (hh : h ∈ p.volume.export.hosts) :
    (Engine.attachForHost p.volume.name p.node (servedName p.volume) h.hostNqn).Only (PublishCall p) := by
  refine only_callOr (fun i w => publishCall_of_calls (b := true) (.of_eq rfl (List.subset_append_left _ _)) fun hp => ?_)
    fun w => publishCall_of_calls (.refl (b := true) w) fun _ => .unseen rfl
  refine .attachedHost hp hh ?_
  simp [AppState.exposed, AppState.note, AppState.serveOn, Exposed.note, Event.serving]

theorem publishCall_attachAdopted {single : Bool} {s : Serving} :
    (attachAdopted p.volume.name p.node single s).Only (PublishCall p) := by
  unfold attachAdopted
  split
  · trivial
  · split
    · trivial
    · refine publishCall_attach.attempt.bind fun x => ?_
      cases x <;> trivial

theorem publishCall_attachServed {single recorded : Bool} {s : Serving} :
    (attachServed p.volume.name p.node single recorded s).Only (PublishCall p) := by
  unfold attachServed
  split
  · trivial
  · refine publishCall_attach.attempt.bind fun x => ?_
    cases x <;> trivial

theorem publishCall_serveEach {recorded : Bool} (hosts : List HostServe) (hh : ∀ h ∈ hosts, h ∈ p.volume.export.hosts) :
    (serveEach p.volume.name p.node (servedName p.volume) recorded hosts).Only (PublishCall p) := by
  induction hosts with
  | nil => trivial
  | cons h hs ih =>
    refine (publishCall_attachHost (hh h List.mem_cons_self)).attempt.bind fun r => ?_
    refine (publishCall_hushed (b := true) (remote_ask _) (only_atomic fun _ => .refl)).bind fun now => ?_
    refine (ih fun h hm => hh h (List.mem_cons_of_mem _ hm)).bind fun _ => ?_
    cases r <;> trivial

/-- The same served volume. -/
structure SameServing (s s' : Serving) : Prop where
  volumeId : s'.volumeId = s.volumeId
  adopted : s'.adopted = s.adopted

theorem Finds.same {s s' : Serving} (h : Finds w p s) (hs : SameServing s s') : Finds w p s' :=
  ⟨fun id hid => hs.volumeId.trans (h.kept id hid), fun id hid => h.told id (hs.volumeId.symm.trans hid),
    fun ha => hs.adopted.trans (h.adopted ha)⟩

theorem answers_attachAdopted {node : String} {single : Bool} {s : Serving} :
    (attachAdopted name node single s).Answers (SameServing s) := by
  unfold attachAdopted
  split
  · exact ⟨rfl, rfl⟩
  · split
    · exact ⟨rfl, rfl⟩
    · exact (answers_true _).attempt_bind (fun _ _ => ⟨rfl, rfl⟩) fun _ => ⟨rfl, rfl⟩

theorem answers_attachServed {node : String} {single recorded : Bool} {s : Serving} :
    (attachServed name node single recorded s).Answers (SameServing s) := by
  unfold attachServed
  split
  · exact ⟨rfl, rfl⟩
  · exact (answers_true _).attempt_bind (fun _ _ => ⟨rfl, rfl⟩) fun _ => ⟨rfl, rfl⟩

theorem answers_serveHosts {s : Serving} : (serveHosts vol place s).Answers fun r => SameServing s r.serving := by
  unfold serveHosts
  split
  · split
    · exact ⟨rfl, rfl⟩
    · exact (answers_true _).attempt_bind (fun _ _ => (answers_true _).bind fun _ _ => ⟨rfl, rfl⟩) fun _ => ⟨rfl, rfl⟩
  · exact ⟨rfl, rfl⟩

theorem publishCall_serveHosts {s : Serving} (hvol : p.volume = vol) (hnode : p.node = place.node) :
    (serveHosts vol place s).Only (PublishCall p) := by
  subst hvol
  unfold serveHosts
  split
  · split
    · trivial
    · refine Only.bind (C := PublishCall p) (Only.attempt ?_) fun x => ?_
      · unfold servedLocalId
        split
        · trivial
        · split
          · trivial
          · exact publishCall_hushed (b := true) (only_withContext Engine.remote_localVolumeId)
              (only_withContext Engine.hushed_localVolumeId)
      · cases x with
        | error e => trivial
        | ok lid =>
          rw [← hnode]
          exact (publishCall_serveEach _ fun _ h => h).bind fun _ => trivial
  · trivial

/-- A served volume that is still to be made is the mirror. -/
theorem place_unmade {fed : FedState} (h : serveAt fed vol = .ok place) (hnone : place.volumeId = none)
    (hc : vol.assembly ≠ .clone) : servedName vol = vol.name ++ mirrorSuffix := by
  unfold serveAt at h
  unfold servedName
  split
  · rename_i hsingle
    rw [hsingle] at h
    unfold serveOwn at h
    rw [hsingle] at h
    dsimp only at h
    split at h
    · cases h
    · rename_i leg hleg
      obtain ⟨-, -, he⟩ := check_bind.mp h
      obtain rfl := Except.ok.inj he
      have := (Option.filter_eq_some_iff.mp hleg).2
      simp only [decide_eq_true_eq] at this
      simp [show leg.volumeId = none from hnone] at this
  · exact absurd ‹_› hc
  · rfl

/-- Finding the served volume, making it or attaching it. -/
theorem serve_shared {fed : FedState} {up : Bool} (hP : Firm t P) (hplace : serveAt fed vol = .ok place)
    (hname : vol.name = name) (hi : StepInv w) (hs : Publishing P ⟨t, vol, place.node, place.volumeId, up⟩ w) :
    ServeSafe t (serveShared t name vol place) (fun x s => Publishing P ⟨t, vol, place.node, place.volumeId, up⟩ s ∧
      ∀ r, x = .ok r → Finds s ⟨t, vol, place.node, place.volumeId, up⟩ r) w := by
  subst hname
  generalize hp : (⟨t, vol, place.node, place.volumeId, up⟩ : Publish) = p at hs ⊢
  have htask : p.task = t := hp ▸ rfl
  have hend := enduring_publishing hP htask
  have hkept : ∀ s (r : Serving), r.volumeId = place.volumeId → (p.adopts → r.adopted = true) → Finds s p r :=
    fun s r hr ha => hp ▸ ⟨fun _ h => hr.trans h, fun _ h => .inl (hr.symm.trans h), fun h => ha (hp ▸ h)⟩
  unfold serveShared
  generalize hserving : ({
    volumeId := place.volumeId
    masterNode := place.masterNode
    adopted := vol.export.adopted ∧ vol.export.node = some place.node } : Serving) = serving
  have hid : serving.volumeId = place.volumeId := hserving ▸ rfl
  have hadopted : p.adopts → serving.adopted = true := fun h => by
    rw [← hp] at h
    rw [← hserving]
    exact decide_eq_true h
  dsimp only
  split
  · rename_i hclone
    have hnone : place.volumeId = none := Option.isNone_iff_eq_none.mp hclone.2
    refine (serve_localVolumeId hend hi hs).attempt_bind hi fun x s hi hx => ?_
    cases x with
    | error e =>
      exact Safe.ret hend.stable (fun s _ h => ⟨h, fun r hr => Except.ok.inj hr ▸ hkept s _ hid hadopted⟩) hi hx.1
    | ok id =>
      have htold := hx.2 id rfl
      refine (serve_calls (p := p) (hP.and firm_told) htask (by subst hp; exact publishCall_attachAdopted)
        answers_attachAdopted hi ⟨⟨hx.1.1, htold⟩, hx.1.2⟩).mono fun x s h => ⟨⟨h.1.1.1, h.1.2⟩, fun r hr => ?_⟩
      refine Finds.same ?_ (h.2 r hr)
      refine ⟨fun id' h' => ?_, fun id' h' => .inr ?_, fun _ => rfl⟩
      · rw [← hp] at h'
        cases hnone.symm.trans h'
      · rw [← Option.some.inj h', ← hp, show servedName vol = vol.name by simp [servedName, hclone.1]]
        exact h.1.1.2
  · rename_i hclone
    split
    · refine (serve_calls (p := p) hP htask (by subst hp; exact publishCall_attachAdopted) answers_attachAdopted hi
        hs).mono fun x s h => ⟨h.1, fun r hr => ?_⟩
      exact (hkept s _ hid hadopted).same (h.2 r hr)
    · rename_i hmade
      split
      · refine (serve_calls (p := p) hP htask (by subst hp; exact publishCall_attachServed) answers_attachServed hi
          hs).mono fun x s h => ⟨h.1, fun r hr => ?_⟩
        exact (hkept s _ hid hadopted).same (h.2 r hr)
      · rename_i hunmade
        rw [hid] at hunmade
        have hnone : place.volumeId = none := by simpa using hunmade
        have hpnone : p.volumeId = none := hp ▸ hnone
        have hpadopts : ¬ p.adopts := fun h => hmade (hadopted h)
        have hmirror : servedName vol = vol.name ++ mirrorSuffix :=
          place_unmade hplace hnone fun hc => hclone ⟨hc, by simp [hnone]⟩
        have hnote : (.modify fun w => w.note (.pinned (vol.name ++ mirrorSuffix)) : Async Unit).Only (PublishCall p) :=
          only_atomic fun _ w => publishCall_of_calls (remote_note (b := true) w _) fun hm =>
            .pinned hm hpnone hpadopts (by rw [← hp]; exact exposed_noted rfl)
        refine Safe.attempt_bind (Q := fun x s => Publishing P p s ∧ ∀ item id, x = .ok item → item.id = some id →
            ⟨place.node, vol.name ++ mirrorSuffix, id⟩ ∈ s.answered) hi ?_ fun x s hi hx => ?_
        · refine (serve_calls hP htask hnote (answers_true _) hi hs).bind hi (fun _ s hi h => ?_)
            fun _ _ h => ⟨h.1, fun _ _ he => by cases he⟩
          exact serve_createVolume hend hi h.1
        · have hret : ∀ r : Serving, r.volumeId = place.volumeId → r.adopted = serving.adopted →
              ServeSafe t (.ret r) (fun x s => Publishing P p s ∧ ∀ r, x = .ok r → Finds s p r) s := fun r hr ha =>
            Safe.ret hend.stable (fun s _ h => ⟨h, fun r' he => Except.ok.inj he ▸ hkept s r hr
              fun h => ha.trans (hadopted h)⟩) hi hx.1
          cases x with
          | error e => exact hret _ hid rfl
          | ok created =>
            dsimp only
            split
            · exact hret _ hid rfl
            · rename_i id hcreated
              split
              · exact hret _ hid rfl
              · have htold := hx.2 created id rfl hcreated
                refine (serve_calls (p := p) (hP.and firm_told) htask (by subst hp; exact publishCall_attachServed)
                  answers_attachServed hi ⟨⟨hx.1.1, htold⟩, hx.1.2⟩).mono fun x s h => ⟨⟨h.1.1.1, h.1.2⟩, fun r hr => ?_⟩
                refine Finds.same ?_ (h.2 r hr)
                refine ⟨fun id' h' => ?_, fun id' h' => .inr ?_, fun h => absurd h hpadopts⟩
                · cases hpnone.symm.trans h'
                · rw [← Option.some.inj h', ← hp, hmirror]
                  exact h.1.1.2

/-- A step of task `t` that writes a record and leaves claims and copies alone. -/
theorem guar_put (hr : w'.replacing = w.replacing) (hs : w'.spawned = w.spawned) (hc : w'.copies = w.copies)
    (hp : ∀ p ∈ w.publishes, p.task ≠ t → p ∈ w'.publishes) (ha : w'.answered = w.answered) (hstep : ServeStep w w') :
    ServeGuar (some t) w w' :=
  ⟨others_of_eq hr hs hc, fun p hm hne => hp p hm fun he => hne (he ▸ rfl), by rw [ha]; exact List.Subset.refl _, hstep⟩

theorem mem_endPublish {p : Publish} (hm : p ∈ w.publishes) (hne : p.task ≠ t) : p ∈ (w.endPublish t).publishes :=
  List.mem_filter.mpr ⟨hm, decide_eq_true hne⟩

/-- The end of a publish. -/
theorem serve_record {s : Served} {up : Bool} (hP : Firm t P) (hname : vol.name = name) (hi : StepInv w)
    (hs : Publishing (fun w => P w ∧ Finds w ⟨t, vol, place.node, place.volumeId, up⟩ s.serving)
      ⟨t, vol, place.node, place.volumeId, up⟩ w) :
    ServeSafe t (recordPublish t name vol place s) (fun _ s => P s) w := by
  subst hname
  refine Safe.step (enduring_publishing (hP.and firm_finds) rfl).stable (fun w i hi hs _ _ => ?_) hi hs
  dsimp only
  split
  · have hg : ServeGuar (some t) w (w.endPublish t) :=
      guar_put rfl rfl rfl (fun _ hm hne => mem_endPublish hm hne) rfl (.missing rfl)
    have hi' : StepInv (w.endPublish t) := inv_of_eq (w := w) rfl rfl hi.named hi
    exact ⟨hi', hg, serve_fail hP.enduring hi' (hP.own w _ rfl rfl rfl (List.Subset.refl _) hs.1.1)⟩
  · rename_i v hv
    have hv : w.fed.volumes[vol.name]? = some v := hv
    generalize hw : ((w.endPublish t).revise fun fed =>
      { fed with volumes := fed.volumes.insert vol.name (s.record vol.name vol place i.now v) }) = w'
    have hnamed : Named w'.fed := by
      subst hw
      exact named_insert hi.named (show v.name = vol.name from hi.named _ _ hv)
    have hg : ServeGuar (some t) w w' := by
      subst hw
      exact guar_put rfl rfl rfl (fun _ hm hne => mem_endPublish hm hne) rfl (.recorded hs.2 hv rfl hs.1.2 rfl)
    have hi' : StepInv w' := inv_of_eq (by subst hw; rfl) (by subst hw; rfl) hnamed hi
    have hp' : P w' := by
      subst hw
      exact hP.own w _ rfl rfl rfl (List.Subset.refl _) hs.1.1
    exact ⟨hi', hg, serve_gentle hP.enduring (gentle_ofExcept _) hi' hp'⟩

/-- The node of a publish cannot be reached. -/
theorem serve_unreachable (hP : Firm t P) (hname : vol.name = name) (hi : StepInv w)
    (hs : Publishing P ⟨t, vol, place.node, place.volumeId, false⟩ w) :
    ServeSafe t (unreachable t name place.node) (fun _ s => P s) w := by
  subst hname
  refine Safe.step (enduring_publishing hP rfl).stable (fun w i hi hs _ _ => ?_) hi hs
  dsimp only
  split
  · rename_i hin
    obtain ⟨v, hv⟩ := Option.isSome_iff_exists.mp ((KeyMap.contains_eq _ _).symm.trans hin)
    have hv : w.fed.volumes[vol.name]? = some v := hv
    generalize hw : ((w.endPublish t).revise (·.modifyVolume vol.name fun v => { v with «export» := { v.export with
      state := .failed
      message := some s!"{vol.name}: {place.node} is unreachable — cannot serve from it"
      node := some place.node } })) = w'
    have hnamed : Named w'.fed := by
      subst hw
      exact named_modify (fun _ => rfl) hi.named
    have hexposed := exposed_modify (w := w.endPublish t) (f := fun v => { v with «export» := { v.export with
      state := .failed
      message := some s!"{vol.name}: {place.node} is unreachable — cannot serve from it"
      node := some place.node } }) hv
    have hg : ServeGuar (some t) w w' := by
      subst hw
      exact guar_put rfl rfl rfl (fun _ hm hne => mem_endPublish hm hne) rfl (.unreached hs.2 rfl hv hexposed)
    have hi' : StepInv w' := inv_of_eq (by subst hw; rfl) (by subst hw; rfl) hnamed hi
    have hp' : P w' := by
      subst hw
      exact hP.own w _ rfl rfl rfl (List.Subset.refl _) hs.1
    exact ⟨hi', hg, serve_fail hP.enduring hi' hp'⟩
  · have hg : ServeGuar (some t) w (w.endPublish t) :=
      guar_put rfl rfl rfl (fun _ hm hne => mem_endPublish hm hne) rfl (.missing rfl)
    have hi' : StepInv (w.endPublish t) := inv_of_eq (w := w) rfl rfl hi.named hi
    exact ⟨hi', hg, serve_fail hP.enduring hi' (hP.own w _ rfl rfl rfl (List.Subset.refl _) hs.1)⟩

theorem publishReady_ok {fed : FedState} {r : DistVolume × ServeAt × Bool} (h : publishReady name fed = .ok r) :
    fed.volumes[name]? = some r.1 ∧ r.1.export.state ≠ .revoking ∧ r.1.export.gone = false ∧
      serveAt fed r.1 = .ok r.2.1 := by
  obtain ⟨vol, hvol, h⟩ := check_bind.mp h
  split at h
  · cases h
  · split at h
    · cases h
    · obtain ⟨place, hplace, h⟩ := check_bind.mp h
      obtain rfl := Except.ok.inj h
      exact ⟨findVolume_eq.mp hvol, ‹_›, by simpa using ‹¬ vol.export.gone = true›, hplace⟩

/-- A publish, from its read to its end. -/
theorem serve_publish (hP : Firm t P) (hi : StepInv w) (hs : P w) :
    ServeSafe t (publish t name) (fun _ s => P s) w := by
  refine Safe.bind (Q := fun x s => P s ∧ ∀ r, x = .ok r → (∃ fed, serveAt fed r.1 = .ok r.2.1) ∧ r.1.name = name ∧
    ⟨t, r.1, r.2.1.node, r.2.1.volumeId, r.2.2⟩ ∈ s.publishes) hi ?_ (fun r w hi h => ?_) fun _ _ h => h.1
  · refine Safe.step hP.stable (fun w i hi hs _ _ => ?_) hi hs
    dsimp only
    split
    · rename_i r hr
      obtain ⟨hv, -, -, hplace⟩ := publishReady_ok hr
      have hname : r.1.name = name := hi.named _ _ hv
      generalize hw : ({ w with publishes := w.publishes ++ [⟨t, r.1, r.2.1.node, r.2.1.volumeId, r.2.2⟩] } :
        AppState) = w'
      have hg : ServeGuar (some t) w w' := by
        subst hw
        exact guar_put rfl rfl rfl (fun _ hm _ => List.mem_append_left _ hm) rfl
          (.began (p := ⟨t, r.1, r.2.1.node, r.2.1.volumeId, r.2.2⟩) (by rw [hname]; exact hr) rfl rfl rfl rfl)
      have hi' : StepInv w' := inv_of_eq (by subst hw; rfl) (by subst hw; rfl) (by subst hw; exact hi.named) hi
      have hpub : Publishing P ⟨t, r.1, r.2.1.node, r.2.1.volumeId, r.2.2⟩ w' := by
        subst hw
        exact ⟨hP.own w _ rfl rfl rfl (List.Subset.refl _) hs, List.mem_append_right _ (List.mem_singleton_self _)⟩
      refine ⟨hi', hg, Safe.ret (enduring_publishing hP rfl).stable (fun s _ h => ⟨h.1, fun r' he => ?_⟩) hi' hpub⟩
      obtain rfl := Except.ok.inj he
      exact ⟨⟨_, hplace⟩, hname, h.2⟩
    · exact ⟨hi, (Gentle.refl w).guar, Safe.fail hP.stable (fun s _ h => ⟨h, fun _ he => by cases he⟩) hi hs⟩
  · obtain ⟨vol, place, up⟩ := r
    obtain ⟨⟨fed, hplace⟩, hname, hmem⟩ := h.2 _ rfl
    dsimp only at hplace hname hmem ⊢
    split
    · refine (serve_shared hP hplace hname hi ⟨h.1, hmem⟩).bind hi (fun s w hi hx => ?_) fun _ _ h => h.1.1
      have hfinds := hx.2 s rfl
      refine (serve_calls (p := ⟨t, vol, place.node, place.volumeId, up⟩) (hP.and firm_finds) rfl
        (publishCall_serveHosts rfl rfl) answers_serveHosts hi ⟨⟨hx.1.1, hfinds⟩, hx.1.2⟩).bind hi
        (fun r w hi h => ?_) fun _ _ h => h.1.1.1
      exact serve_record hP hname hi ⟨⟨h.1.1.1, h.1.1.2.same (h.2 r rfl)⟩, h.1.2⟩
    · rename_i hdown
      rw [Bool.eq_false_of_not_eq_true hdown] at hmem
      exact serve_unreachable hP hname hi ⟨h.1, hmem⟩

theorem serve_publishAll {names : List String} (hP : Firm t P) (hi : StepInv w) (hs : P w) :
    ServeSafe t (publishAll t names) (fun _ s => P s) w :=
  serve_forEach hP.enduring (fun _ _ hi hs => serve_ignore hP.enduring (serve_publish hP hi hs) hi) hi hs

theorem serve_publishClonesOf {parent : String} (hP : Firm t P) (hi : StepInv w) (hs : P w) :
    ServeSafe t (publishClonesOf t parent) (fun _ s => P s) w :=
  (serve_gentle hP.enduring (gentle_get _) hi hs).bind hi (fun _ _ hi hs => serve_publishAll hP hi hs) fun _ _ h => h

end

end StormStorage
