import StormStorage.Proof.Legs.Account
import StormStorage.Proof.Requests.Admission

/-!
# No leg is lost

The programs that make, replace and delete legs, walked with what each has in
hand (`Hand`): a leg that a create or a replacement made is recorded, or taken
back before the operation lets the volume go; a leg that leaves a record is
deleted or left as an orphan (`legs_kept`). A create whose answer is lost, an
undo that the engine refuses, and a replacement that is recorded while its
volume is being deleted each leave a leg that no record refers to.
-/

namespace StormStorage

open Await Task Orchestrate

/-! ## Calls -/

/-- A task that goes on beside the others. -/
abbrev LegsSafe (t : Nat) {α : Type} (task : Async α) (Q : Except Fault α → AppState → Prop) (w : AppState) : Prop :=
  task.Safe legsDiscipline t Q w

/-- The others keep it, and so do calls that make no leg. -/
structure Lasting (t : Nat) (P : AppState → Prop) : Prop where
  stable : legsDiscipline.Stable t P
  beside : ∀ w w', Beside w w' → P w → P w'

section

variable {t : Nat} {n node id : String} {cs : List String} {c : Bool} {X : List (String × String)}
  {A : Option Holding → Prop} {P P' : AppState → Prop} {w : AppState} {α : Type}

theorem Lasting.and (h : Lasting t P) (h' : Lasting t P') : Lasting t fun w => P w ∧ P' w :=
  ⟨h.stable.and h'.stable, fun _ _ hb hs => ⟨h.beside _ _ hb hs.1, h'.beside _ _ hb hs.2⟩⟩

theorem lasting_const (p : Prop) : Lasting t fun _ => p := ⟨Discipline.stable_const p, fun _ _ _ h => h⟩

theorem lasting_hand : Lasting t (Hand t n cs c X A) := ⟨stable_hand, fun _ _ hb h => h.beside hb⟩

theorem lasting_gone : Lasting t (Gone node id) := ⟨stable_gone, fun _ _ hb h => h.kept (u := none) hb.guar⟩

theorem lasting_given : Lasting t fun w => w.given node id = true :=
  ⟨fun _ _ _ _ _ _ hg h => hg.given _ _ h, fun _ _ hb h => hb.engines.given h⟩

theorem lasting_accounted : Lasting t (Accounted t) := by
  refine ⟨stable_accounted, fun w w' hb h n hn => ?_⟩
  have hc : w'.creating t = w.creating t := by rw [AppState.creating, hb.undertakings, AppState.creating]
  exact (hb.guar (u := none)).referred (fun _ hu => by cases hu) (h n (hc ▸ hn))

/-- The task creates nothing. -/
def Idle (t : Nat) (w : AppState) : Prop := w.creating t = []

theorem lasting_idle : Lasting t (Idle t) := by
  refine ⟨fun w w' u hu _ _ hg h => (hg.undertakes t hu).1.trans h, fun w w' hb h => ?_⟩
  rwa [Idle, AppState.creating, hb.undertakings]

/-- A phase that makes no leg and leaves the records. -/
theorem safe_beside {task : Async α} {Q : α → Prop} (hP : Lasting t P) (ht : task.Only Beside) (hq : task.Answers Q)
    (hi : LegsInv w) (hs : P w) : LegsSafe t task (fun x s => P s ∧ ∀ a, x = .ok a → Q a) w :=
  Safe.of_answers ht hq hP.stable (fun _ _ hi hs h hok => ⟨hi.beside h hok, h.guar, hP.beside _ _ h hs⟩) hi hs

theorem only_beside {task : Async α} (ht : task.Only (Calls false)) : task.Only Beside := ht.mono fun _ _ => beside_of_calls

/-- The same, whatever it answers. -/
theorem safe_quietly {task : Async α} (hP : Lasting t P) (ht : task.Only Beside) (hi : LegsInv w) (hs : P w) :
    LegsSafe t task (fun _ s => P s) w := (safe_beside hP ht (answers_true _) hi hs).mono fun _ _ h => h.1

theorem safe_ofExcept (hP : Lasting t P) {Q : Except Fault α → AppState → Prop} {x : Except Fault α}
    (hq : ∀ s, LegsInv s → P s → Q x s) (hi : LegsInv w) (hs : P w) : LegsSafe t (.ofExcept x : Async α) Q w := by
  cases x with
  | ok a => exact Safe.ret hP.stable hq hi hs
  | error e => exact Safe.fail hP.stable hq hi hs

/-! ### Making and deleting a volume -/

/-- The leg that an answer names. -/
def namedLeg (node : String) : Except Fault EngineItem → List (String × String)
  | .ok v => (v.id.map fun id => (node, id)).toList
  | .error _ => []

/-- A create that no answer names made no leg, if none was left behind. -/
theorem unnamed_createOn {made : String} (hi : LegsInv w) (hh : Hand t n cs c X A w)
    (hok : Orderly ((w.createOn t node n true made).noteLeft .unanswered fun e => e.node = node ∧ w.given node e.id = false)) :
    let w' := (w.createOn t node n true made).noteLeft .unanswered fun e => e.node = node ∧ w.given node e.id = false
    (LegsInv w' ∧ LegsGuar (some t) w w') ∧ Hand t n cs c X A w' := by
  obtain ⟨he, hnone⟩ := noteLeft_orderly hok
  rw [he] at hok
  dsimp only
  rw [he]
  refine ⟨hi.createOn hh hok, hh.createOn (fun _ h => h) (fun node' id h => ?_) fun e he hl hn hgiven _ => ?_⟩
  · exact (remote_createOn w t node n (b := true) (fun _ => rfl) made).engines.given (hh.given node' id h)
  · exact absurd hl (hnone e he (by simp [hn, hgiven]))

/-- That an answer was heard changes nothing else. -/
theorem legs_told {m : String} {id? : Option String} (hg : LegsGuar (some t) w w') (hi : LegsInv w')
    (hok : Orderly (w'.told node m id?)) :
    LegsInv (w'.told node m id?) ∧ LegsGuar (some t) w (w'.told node m id?) :=
  ⟨hi.beside (beside_of_calls (remote_told w' node m id?)) hok,
    { refers := hg.refers, legs := hg.legs, given := hg.given, undertakes := hg.undertakes, holds := hg.holds
      claims := hg.claims, holding := hg.holding }⟩

/-- The task has the leg in hand that its create is answered with. -/
theorem safe_createLeg (hi : LegsInv w) (hh : Hand t n cs c X A w) :
    LegsSafe t (Engine.createVolume t node n true) (fun x => Hand t n cs c (namedLeg node x ++ X) A) w := by
  refine safe_callOr stable_hand (fun _ => stable_hand) (fun s i hi hh hok => ?_) hi hh
  dsimp only at hok ⊢
  cases hw : i.wire with
  | refused status why => exact ⟨⟨hi, (Beside.refl s).guar⟩, hh⟩
  | lost why =>
    have hnames : i.names = false := by rw [Reply.names, hw]
    simp only [hw, hnames, Wire.effect, Bool.false_eq_true, ↓reduceIte] at hok ⊢
    exact unnamed_createOn hi hh hok
  | answered =>
    cases hid : i.item.id with
    | none =>
      have hnames : i.names = false := by rw [Reply.names, hw, hid]; rfl
      simp only [hw, hnames, Wire.effect, Bool.false_eq_true, ↓reduceIte] at hok ⊢
      obtain ⟨hinv, hh'⟩ := unnamed_createOn hi hh hok
      refine ⟨hinv, ?_⟩
      unfold Wire.outcome
      dsimp only
      split <;> exact hh'
    | some answer =>
      have hnames : i.names = true := by rw [Reply.names, hw, hid]; rfl
      simp only [hw, hnames, Wire.effect, ↓reduceIte] at hok ⊢
      have hok' : Orderly (s.createOn t node n true i.made) := ⟨hok.answered, hok.clear, hok.alone⟩
      have hmade := hi.createOn hh hok'
      refine ⟨legs_told hmade.2 hmade.1 hok, Hand.beside (beside_of_calls (remote_told _ _ _ _)) ?_⟩
      have hgiven : ∀ node' id, (node', id) ∈ X → (s.createOn t node n true i.made).given node' id = true := fun _ _ h =>
        (remote_createOn s t node n (b := true) (fun _ => rfl) i.made).engines.given (hh.given _ _ h)
      unfold Wire.outcome
      dsimp only
      split
      · rename_i id hcreated
        refine hh.createOn (fun _ h => List.mem_append_right _ h) (fun node' id' h => ?_) fun e he hl hn _ hc => ?_
        · rcases List.mem_append.mp h with h | h
          · simp only [namedLeg, Option.map_some, Option.toList_some, List.mem_singleton, Prod.mk.injEq] at h
            rw [h.1, h.2]
            exact given_createOn hcreated
          · exact hgiven node' id' h
        · obtain rfl := Option.some.inj (hc.symm.trans hcreated)
          exact List.mem_append_left _ (by simp [namedLeg])
      · rename_i hcreated
        exact hh.createOn (fun _ h => h) hgiven fun e he hl hn _ hc => absurd (hc.symm.trans hcreated) nofun

/-- A delete that takes effect. -/
theorem gone_destroyOn (hgiven : w.given node id = true) : Gone node id (w.destroyOn node id) := by
  refine ⟨(remote_destroyOn (b := true) w node id).engines.given hgiven, fun e' he' hl ⟨hn, hi⟩ => ?_⟩
  obtain ⟨e, -, rfl⟩ := List.mem_map.mp he'
  by_cases h : e.node = node ∧ e.id = id
  · rw [if_pos h] at hl
    exact Bool.false_ne_true hl.2.symm
  · rw [if_neg h] at hn hi
    exact h ⟨hn, hi⟩

theorem safe_deleteOnEngine (hP : Lasting t P) (hi : LegsInv w) (hs : P w) (hgiven : w.given node id = true) :
    LegsSafe t (Engine.deleteVolume node id) (fun x s => P s ∧ (x = .ok () → Gone node id s)) w := by
  have hQ : ∀ x : Except Fault Unit, legsDiscipline.Stable t fun s => P s ∧ (x = .ok () → Gone node id s) :=
    fun x => hP.stable.and fun s s' u hu hi hi' hg h he => (h he).kept hg
  refine safe_callOr (hP.and lasting_given).stable hQ (fun s i hi hs hok => ?_) hi ⟨hs, hgiven⟩
  cases hw : i.wire with
  | refused status why => exact ⟨⟨hi, (Beside.refl s).guar⟩, hs.1, fun h => nomatch h⟩
  | lost why =>
    have hb := beside_of_calls (remote_destroyOn s node id)
    exact ⟨⟨hi.beside hb (by simpa [hw, Wire.effect] using hok), hb.guar⟩, hP.beside _ _ hb hs.1, fun h => nomatch h⟩
  | answered =>
    have hb := beside_of_calls (remote_destroyOn s node id)
    exact ⟨⟨hi.beside hb (by simpa [hw, Wire.effect] using hok), hb.guar⟩, hP.beside _ _ hb hs.1, fun _ =>
      gone_destroyOn hs.2⟩

/-- The undo of a create, where none is refused. -/
theorem safe_undoVolume {me : Nat} (hP : Lasting t P) (hi : LegsInv w) (hs : P w) (hgiven : w.given node id = true) :
    LegsSafe t (Engine.undoVolume me node id) (fun _ s => P s ∧ Gone node id s) w := by
  refine safe_callOr (hP.and lasting_given).stable (fun _ => (hP.and lasting_gone).stable) (fun s i hi hs hok => ?_) hi
    ⟨hs, hgiven⟩
  have hdone : Orderly ((s.noteUndo me node id).destroyOn node id) →
      (LegsInv ((s.noteUndo me node id).destroyOn node id) ∧
        LegsGuar (some t) s ((s.noteUndo me node id).destroyOn node id)) ∧
      P ((s.noteUndo me node id).destroyOn node id) ∧ Gone node id ((s.noteUndo me node id).destroyOn node id) := by
    intro hok
    have hnote : Calls false s (s.noteUndo me node id) := remote_noteUndo s me node id
    have hb := beside_of_calls (hnote.trans (remote_destroyOn _ node id))
    exact ⟨⟨hi.beside hb hok, hb.guar⟩, hP.beside _ _ hb hs.1, gone_destroyOn (hnote.engines.given hs.2)⟩
  cases hw : i.wire with
  | answered => exact hdone (by simpa [hw, Wire.effect] using hok)
  | lost why => exact hdone (by simpa [hw, Wire.effect] using hok)
  | refused status why =>
    simp only [hw, Wire.effect] at hok ⊢
    obtain ⟨he, hnone⟩ := noteLeft_orderly hok
    rw [he]
    exact ⟨⟨hi, (Beside.refl s).guar⟩, hs.1, hs.2, fun e he hl h => hnone e he (by simp [h.1, h.2]) hl⟩

theorem total_actIf {there : Bool} : (actIf there).Total := by
  unfold actIf
  split
  · exact (total_attempt _).bind fun _ => trivial
  · trivial

theorem total_undoLeg {me : Nat} {leg : Leg} : (undoLeg me leg).Total := by
  refine total_actIf.bind fun _ => total_actIf.bind fun _ => ?_
  split
  · exact total_actIf.bind fun _ => (total_attempt _).bind fun _ => trivial
  · trivial

/-- A leg with a volume is taken back. -/
theorem safe_takeBack {me : Nat} {leg : Leg} {id : String} (hP : Lasting t P) (hid : leg.volumeId = some id)
    (hmaster : leg.masterNode.isSome = true) (hi : LegsInv w) (hs : P w) (hgiven : w.given leg.node id = true) :
    LegsSafe t (undoLeg me leg) (fun _ s => P s ∧ Gone leg.node id s) w := by
  obtain ⟨master, hmaster⟩ := Option.isSome_iff_exists.mp hmaster
  have hlast : Lasting t fun s => P s ∧ s.given leg.node id = true := hP.and lasting_given
  refine Safe.bind_total hi total_actIf (safe_quietly hlast (only_beside remote_actIf) hi ⟨hs, hgiven⟩) fun _ w hi hs => ?_
  refine Safe.bind_total hi total_actIf (safe_quietly hlast (only_beside remote_actIf) hi hs) fun _ w hi hs => ?_
  simp only [hid, hmaster]
  refine Safe.bind_total hi total_actIf (safe_quietly hlast (only_beside remote_actIf) hi hs) fun _ w hi hs => ?_
  refine (safe_undoVolume hP hi hs.1 hs.2).attempt_bind hi fun x s hi hs => ?_
  exact Safe.ret (hP.and lasting_gone).stable (fun _ _ h => h) hi hs

end

/-! ## Creating legs -/

/-- The engine volumes of legs. -/
def legSpots (legs : List Leg) : List (String × String) := legs.filterMap fun l => l.volumeId.map fun id => (l.node, id)

section

variable {t : Nat} {n : String} {cs : List String} {c : Bool} {X : List (String × String)} {A : Option Holding → Prop}
  {w : AppState} {cfg : Config}

/-- Where a node is not known, no leg was made before. -/
theorem safe_knownNode {node : String} (hi : LegsInv w) (hh : Hand t n cs c X A w) :
    LegsSafe t (Api.knownNode t n node) (fun x s => Hand t n cs c X A s ∧ ∀ e, x = .error e → Hand t n cs c [] A s) w := by
  refine Safe.step stable_hand (fun s i hi hh _ hok => ?_) hi hh
  dsimp only at hok ⊢
  split
  · exact ⟨hi, (Beside.refl s).guar, Safe.ret stable_hand (fun _ _ h => ⟨h, fun _ h => nomatch h⟩) hi hh⟩
  · rename_i hnode
    rw [if_neg hnode] at hok
    dsimp only at hok
    obtain ⟨he, hnone⟩ := noteLeft_orderly hok
    dsimp only
    rw [he]
    have hempty : Hand t n cs c [] A s := by
      refine ⟨hh.own, hh.creating, hh.holds, fun e he hl hn => ?_, fun _ _ h => absurd h List.not_mem_nil, hh.record,
        hh.erased⟩
      exact .inl ((hh.hand e he hl hn).resolve_right fun hx => hnone e he (by simp [hx.1, hn]) hl)
    exact ⟨hi, (Beside.refl s).guar, Safe.fail (stable_hand.and stable_hand) (fun _ _ h => ⟨h.1, fun _ _ => h.2⟩) hi
      ⟨hh, hempty⟩⟩

/-- The legs that are answered are in hand. -/
theorem safe_createLegs (nodes : List String) (hi : LegsInv w) (hh : Hand t n cs c X A w) :
    LegsSafe t (Api.createLegs t n nodes) (fun x s => match x with
      | .ok r => Hand t n cs c (legSpots r.1 ++ X) A s
      | .error _ => Hand t n cs c [] A s) w := by
  induction nodes generalizing X w with
  | nil => exact Safe.ret stable_hand (fun _ _ h => h) hi hh
  | cons node rest ih =>
    refine (safe_knownNode hi hh).bind hi (fun _ w hi h => ?_) fun e _ h => h.2 e rfl
    refine (safe_createLeg hi h.1).attempt_bind hi fun x w hi h => ?_
    cases x with
    | error e => exact Safe.ret stable_hand (fun _ _ h => h) hi h
    | ok v =>
      refine (ih hi h).bind hi (fun r w hi h => ?_) fun e w h => h
      refine Safe.ret stable_hand (fun _ _ h => ?_) hi h
      have hmem : ∀ x, x ∈ legSpots r.1 ++ (namedLeg node (.ok v) ++ X) ↔
          x ∈ legSpots ({ node := node, volumeId := v.id, state := .created, masterNode := v.master } :: r.1) ++ X := by
        intro x
        cases hv : v.id <;> simp [legSpots, namedLeg, hv, or_left_comm]
      exact h.drop (fun node' id hm => .inl ((hmem _).mp hm)) fun node' id hm => (hmem _).mpr hm

/-- A create that failed has nothing in hand once its legs are taken back. -/
theorem safe_rollback (legs : List Leg) (hi : LegsInv w) (hh : Hand t n cs c (legSpots legs) A w) :
    LegsSafe t (.forEach legs (Api.rollbackLeg t)) (fun _ => Hand t n cs c [] A) w := by
  induction legs generalizing w with
  | nil => exact Safe.ret stable_hand (fun _ _ h => h) hi hh
  | cons leg rest ih =>
    refine Safe.bind_total (Q := fun _ => Hand t n cs c (legSpots rest) A) hi ?_ ?_ fun _ w hi h => ih hi h
    · unfold Api.rollbackLeg
      split
      · trivial
      · refine (total_atomic _).bind fun known => ?_
        split
        · exact (total_attempt _).bind fun _ => trivial
        · trivial
    · unfold Api.rollbackLeg
      split
      · rename_i hid
        refine Safe.ret stable_hand (fun _ _ h => ?_) hi hh
        simpa [legSpots, hid] using h
      · rename_i id hid
        have hspots : legSpots (leg :: rest) = (leg.node, id) :: legSpots rest := by simp [legSpots, hid]
        rw [hspots] at hh
        have hdrop : ∀ s, Hand t n cs c ((leg.node, id) :: legSpots rest) A s ∧ Gone leg.node id s →
            Hand t n cs c (legSpots rest) A s := by
          refine fun s h => h.1.drop (fun node' id' hm => ?_) fun node' id' hm => List.mem_cons_of_mem _ hm
          rcases List.mem_cons.mp hm with heq | hm
          · rw [(Prod.mk.inj heq).1, (Prod.mk.inj heq).2]
            exact .inr (.inr h.2)
          · exact .inl hm
        have hgiven : ∀ s, Hand t n cs c ((leg.node, id) :: legSpots rest) A s → s.given leg.node id = true :=
          fun s h => h.given _ _ (List.mem_cons_self ..)
        refine Safe.step stable_hand (fun s i hi hh _ hok => ?_) hi hh
        dsimp only at hok ⊢
        split
        · refine ⟨hi, (Beside.refl s).guar, ?_⟩
          refine (safe_undoVolume lasting_hand hi hh (hgiven s hh)).attempt_bind hi fun x s hi h => ?_
          exact Safe.ret stable_hand (fun _ _ h => h) hi (hdrop s h)
        · rename_i hnode
          rw [if_neg hnode] at hok
          dsimp only at hok
          obtain ⟨he, hnone⟩ := noteLeft_orderly hok
          dsimp only
          rw [he]
          have hgone : Gone leg.node id s := ⟨hgiven s hh, fun e he hl h => hnone e he (by simp [h.1, h.2]) hl⟩
          exact ⟨hi, (Beside.refl s).guar, Safe.ret stable_hand (fun _ _ h => h) hi (hdrop s ⟨hh, hgone⟩)⟩

end

/-! ## Starting a replacement -/

/-- The record is as it was read, or gone. -/
def AsRead (h : Holding) (o : Option Holding) : Prop := o = none ∨ o = some h

section

variable {t : Nat} {n : String} {cs : List String} {c : Bool} {X : List (String × String)} {A A' : Option Holding → Prop}
  {w w' : AppState} {cfg : Config} {v : DistVolume} {h : Holding}

theorem Hand.weaken (hA : ∀ o, A o → A' o) (hh : Hand t n cs c X A w) : Hand t n cs c X A' w :=
  ⟨hh.own, hh.creating, hh.holds, hh.hand, hh.given, hA _ hh.record, hA _ hh.erased⟩

theorem holdingAt_some (hv : w.fed.volumes[n]? = some v) : w.fed.holdingAt n = some v.holding := by
  rw [FedState.holdingAt, hv]
  rfl

theorem holdingAt_none (hv : w.fed.volumes[n]? = none) : w.fed.holdingAt n = none := by
  rw [FedState.holdingAt, hv]
  rfl

theorem Hand.asRead (hh : Hand t n cs c X A w) (hk : w.fed.holdingAt n = some h) : Hand t n cs c X (AsRead h) w :=
  ⟨hh.own, hh.creating, hh.holds, hh.hand, hh.given, .inr hk, .inl rfl⟩

/-- The records after one is written. -/
theorem holdingAt_insert {fed fed' : FedState} (hf : fed'.volumes = fed.volumes.insert n v) (m : String) :
    fed'.holdingAt m = if n = m then some v.holding else fed.holdingAt m := by
  rw [FedState.holdingAt, hf, KeyMap.get_insert]
  split <;> rfl

theorem holdingAt_modify {f : DistVolume → DistVolume} (fed : FedState) (m : String) :
    (fed.modifyVolume n f).holdingAt m = if n = m then (fed.volumes[n]?).map fun v => (f v).holding else fed.holdingAt m := by
  unfold FedState.modifyVolume
  split
  · rename_i hnone
    split
    · rename_i he
      rw [← he, FedState.holdingAt, hnone]
      rfl
    · rfl
  · rename_i v hv
    rw [hv]
    exact holdingAt_insert rfl m

/-- The claim is taken, with nothing in hand. -/
theorem safe_claimLegs (hi : LegsInv w) (hs : Idle t w) :
    LegsSafe t (claim t n) (fun x s => Idle t s ∧ (x = .ok true → Hand t n [] true [] (fun _ => True) s)) w := by
  refine Safe.step lasting_idle.stable (fun s i hi hs _ hok => ?_) hi hs
  dsimp only at hok ⊢
  split
  · exact ⟨hi, (Beside.refl s).guar, Safe.ret lasting_idle.stable (fun _ _ h => ⟨h, fun h => nomatch h⟩) hi hs⟩
  · rename_i hbusy
    rw [if_neg hbusy] at hok
    have hfree := Bool.eq_false_of_not_eq_true hbusy
    obtain ⟨hi', hg, -⟩ := hi.claimed hfree hok
    exact ⟨hi', hg, Safe.ret (lasting_idle.stable.and stable_hand) (fun _ _ h => ⟨h.1, fun _ => h.2⟩) hi'
      ⟨hs, hand_claimed hi hfree hs hok⟩⟩

theorem safe_letGoLegs (hi : LegsInv w) (hh : Hand t n cs true X A w) (hx : X = [] ∨ n ∈ cs) :
    LegsSafe t (letGo n) (fun _ s => s.creating t = cs) w := by
  have hstable : legsDiscipline.Stable t fun s => s.creating t = cs :=
    fun s s' u hu _ _ hg h => (hg.undertakes t hu).1.trans h
  refine Safe.step stable_hand (fun s i hi hh _ hok => ?_) hi hh
  obtain ⟨hi', hg⟩ := hi.letGo hh hx hok
  exact ⟨hi', hg, Safe.ret hstable (fun _ _ h => h) hi' hh.creating⟩

theorem safe_spawnLegs {s : Spawn} (hi : LegsInv w) (hh : Hand t s.name cs true [] A w) :
    LegsSafe t (spawn s) (fun _ s => s.creating t = cs) w := by
  have hstable : legsDiscipline.Stable t fun s => s.creating t = cs :=
    fun s s' u hu _ _ hg h => (hg.undertakes t hu).1.trans h
  refine Safe.step stable_hand (fun w i hi hh _ hok => ?_) hi hh
  obtain ⟨hi', hg⟩ := hi.spawn hh hok
  exact ⟨hi', hg, Safe.ret hstable (fun _ _ h => h) hi' hh.creating⟩

/-- The record that a replacement is planned on. -/
theorem safe_beginLegs {«from» : String} {«to» : Option String} (hi : LegsInv w)
    (hh : Hand t n cs c X A w) :
    LegsSafe t (beginReplacement cfg n «from» «to») (fun x s => match x with
      | .ok p => (p.vol.name = n ∧ p.vol.replacing = none) ∧ Hand t n cs c X (AsRead p.vol.holding) s
      | .error _ => Hand t n cs c X A s) w := by
  refine Safe.step stable_hand (fun s i hi hh _ hok => ?_) hi hh
  dsimp only at hok ⊢
  split
  · rename_i p hp
    simp only [hp] at hok
    obtain ⟨hvol, -, -, hfree⟩ := replaceable_ok hp
    have hb : Beside s (if «to».isSome then
        s.note (.asked p.vol «from» p.target (crowded cfg s.fed p.vol «from» p.target)) else s) := by
      split
      · exact beside_of_calls (remote_note s _)
      · exact .refl s
    have hread := holdingAt_some hvol
    refine ⟨hi.beside hb hok, hb.guar, ?_⟩
    exact Safe.ret (a := p) stable_hand (fun _ _ h => ⟨⟨hi.named n _ hread, hfree⟩, h⟩) (hi.beside hb hok)
      ((hh.asRead hread).beside hb)
  · rename_i e he
    exact ⟨hi, (Beside.refl s).guar, Safe.fail (e := e) stable_hand (fun _ _ h => h) hi hh⟩

/-- The new leg is in hand. -/
theorem safe_makeLeg {target : String} (hi : LegsInv w) (hh : Hand t n cs c [] A w) :
    LegsSafe t (makeLeg t n target) (fun x s => match x with
      | .ok leg => ∃ id, (leg.node = target ∧ leg.volumeId = some id ∧ leg.masterNode.isSome = true) ∧
          Hand t n cs c [(target, id)] A s
      | .error _ => Hand t n cs c [] A s) w := by
  have hcreate : LegsSafe t (withContext s!"{target}: create leg" (Engine.createVolume t target n true))
      (fun x => Hand t n cs c (namedLeg target x) A) w := by
    refine (safe_createLeg hi hh).attempt_bind hi fun x s hi h => ?_
    rw [List.append_nil] at h
    cases x with
    | ok v => exact Safe.ret stable_hand (fun _ _ h => h) hi h
    | error e => exact Safe.fail stable_hand (fun _ _ h => h) hi h
  refine hcreate.bind hi (fun v w hi h => ?_) fun e w h => h
  unfold namedLeg at h
  split
  · rename_i hid
    simp only [hid] at h
    exact Safe.fail stable_hand (fun _ _ h => h) hi h
  · rename_i id hid
    simp only [hid] at h
    exact Safe.ret stable_hand (fun _ _ h => ⟨id, ⟨rfl, rfl, rfl⟩, h⟩) hi h

/-- A new leg that is taken back is in hand no more. -/
theorem safe_undoNew {α : Type} {leg : Leg} {id : String} {e : Fault} (hid : leg.volumeId = some id)
    (hmaster : leg.masterNode.isSome = true) (hi : LegsInv w) (hh : Hand t n cs c [(leg.node, id)] A w) :
    LegsSafe t (do
      undoLeg t leg
      .fail e : Async α) (fun _ => Hand t n cs c [] (fun _ => True)) w := by
  refine Safe.bind_total hi total_undoLeg
    (safe_takeBack lasting_hand hid hmaster hi hh (hh.given _ _ (List.mem_singleton_self _))) fun _ w hi h => ?_
  refine Safe.fail stable_hand (fun _ _ h => h) hi ((h.1.weaken fun _ _ => trivial).drop (fun node' id' hm => ?_)
    fun _ _ hm => absurd hm List.not_mem_nil)
  rw [(Prod.mk.inj (List.mem_singleton.mp hm)).1, (Prod.mk.inj (List.mem_singleton.mp hm)).2]
  exact .inr (.inr h.2)

/-- A replacement that is recorded, where no delete is under way, refers to its leg. -/
theorem LegsInv.takeReplacement {r : Replacement} {id : String} (hi : LegsInv w)
    (hh : Hand t n cs true [(r.leg.node, id)] A w) (hv : w.fed.volumes[n]? = some v) (hfree : v.replacing = none)
    (hid : r.leg.volumeId = some id) (hmaster : r.leg.masterNode.isSome = true) (hnone : ¬ ∃ u, n ∈ w.deleting u)
    {b : KeyMap Nat} {l : List Event} (hw : w' = { w with begun := b, log := l }.revise fun fed =>
      { fed with volumes := fed.volumes.insert n { v with replacing := some r } }) (hok : Orderly w') :
    (LegsInv w' ∧ LegsGuar (some t) w w') ∧ Hand t n cs true [] (fun _ => True) w' := by
  have hread := holdingAt_some hv
  have hnew : ∀ m, w'.fed.holdingAt m =
      if n = m then some { v.holding with replacing := some r } else w.fed.holdingAt m := fun m => by
    subst hw
    exact holdingAt_insert (v := { v with replacing := some r }) rfl m
  have hspots : ∀ x, x ∈ ({ v.holding with replacing := some r } : Holding).spots ↔
      x ∈ v.holding.spots ∨ x = (r.leg.node, some id) := by
    intro x
    simp [Holding.spots, DistVolume.holding, hfree, hid]
  have hhere : w'.fed.holdingAt n = some { v.holding with replacing := some r } := by rw [hnew, if_pos rfl]
  have hrw : Rewrites n w w' := by
    subst hw
    refine ⟨rfl, fun m hm => by rw [hnew, if_neg (Ne.symm hm)], fun _ h => h, fun _ => rfl, fun _ => rfl, rfl, rfl,
      fun h node' id' hk hm => .inl (.inl ⟨n, _, hhere, (hspots _).mpr (.inl ?_)⟩)⟩
    rwa [Option.some.inj (hk.symm.trans hread)] at hm
  refine ⟨hi.rewritten hrw hok (.inr (.inl ⟨hh.holds rfl, fun h' _ => ⟨_, hread, fun h => absurd h hnone⟩⟩)) fun h hk => ?_, ?_⟩
  · obtain rfl := Option.some.inj (hhere.symm.trans hk)
    refine ⟨hi.named n v.holding hread, fun node' id' hm => ?_, fun r hr => Option.some.inj hr ▸ ⟨hid ▸ rfl, hmaster⟩⟩
    rcases (hspots _).mp hm with hm | hm
    · exact hi.given n _ node' id' hread hm
    · rw [(Prod.mk.inj hm).1, Option.some.inj (Prod.mk.inj hm).2]
      exact hh.given _ _ (List.mem_singleton_self _)
  · have hh' := hh.rewritten (P := fun _ => True) hrw trivial trivial
    refine hh'.drop (fun node' id' hm => .inr (.inl (.inl ⟨n, _, hhere, ?_⟩))) fun _ _ hm => absurd hm List.not_mem_nil
    rw [hspots, (Prod.mk.inj (List.mem_singleton.mp hm)).1, (Prod.mk.inj (List.mem_singleton.mp hm)).2]
    exact .inr rfl

theorem safe_recordLegs {«from» reason : String} {leg : Leg} {id : String} (hid : leg.volumeId = some id)
    (hmaster : leg.masterNode.isSome = true) (hfree : h.replacing = none) (hi : LegsInv w)
    (hh : Hand t n [] true [(leg.node, id)] (AsRead h) w) :
    LegsSafe t (recordReplacement t n «from» leg reason) (fun x s => match x with
      | .ok true => Hand t n [] true [] (fun _ => True) s
      | .ok false => Hand t n [] true [(leg.node, id)] (fun _ => True) s
      | .error _ => False) w := by
  refine Safe.step stable_hand (fun s i hi hh _ hok => ?_) hi hh
  dsimp only at hok ⊢
  split
  · exact ⟨hi, (Beside.refl s).guar, Safe.ret stable_hand (fun _ _ h => h) hi (hh.weaken fun _ _ => trivial)⟩
  · rename_i v hv
    simp only [hv] at hok
    have hread := holdingAt_some hv
    have hold : v.holding = h := Option.some.inj (hread.symm.trans (hh.record.resolve_left fun h => nomatch hread.symm.trans h))
    have hnone : ¬ ∃ u, n ∈ s.deleting u := by
      rintro ⟨u, hu⟩
      obtain ⟨a, ha, -, hn⟩ := mem_deleting.mp hu
      refine hok.clear n (List.mem_append_right _ (List.mem_singleton.mpr ?_))
      rw [Event.replacing.injEq]
      exact ⟨rfl, (List.any_eq_true.mpr ⟨a, ha, by simpa using hn⟩).symm⟩
    obtain ⟨⟨hi', hg⟩, hh'⟩ := hi.takeReplacement
      (r := { «from» := «from», leg := leg, reason := reason, startedAt := i.now }) hh hv
      ((congrArg Holding.replacing hold).trans hfree) hid hmaster hnone rfl hok
    exact ⟨hi', hg, Safe.ret (a := true) stable_hand (fun _ _ h => h) hi' hh'⟩

theorem total_wireLeg {head : String} {leg : Leg} : (wireLeg cfg head leg).Total := by
  refine (total_attempt _).bind fun x => ?_
  cases x with
  | error e => trivial
  | ok att =>
    refine (total_attempt _).bind fun x => ?_
    cases x with
    | error e => trivial
    | ok drive =>
      refine (total_attempt _).bind fun x => ?_
      cases x <;> trivial

theorem safe_buildLegs {«from» reason : String} {«to» : Option String} (hi : LegsInv w)
    (hh : Hand t n [] true [] (fun _ => True) w) :
    LegsSafe t (buildReplacement cfg t n «from» «to» reason) (fun _ => Hand t n [] true [] (fun _ => True)) w := by
  refine (safe_beginLegs hi hh).bind hi (fun p w hi h => ?_) fun _ _ h => h
  obtain ⟨⟨hname, hfree⟩, hh⟩ := h
  split
  · exact Safe.fail stable_hand (fun _ _ h => h.weaken fun _ _ => trivial) hi hh
  · rw [hname]
    refine (safe_makeLeg hi hh).bind hi (fun leg w hi h => ?_) fun _ _ h => h.weaken fun _ _ => trivial
    obtain ⟨id, ⟨hnode, hid, hmaster⟩, hh⟩ := h
    refine Safe.bind_total hi total_wireLeg
      (safe_beside lasting_hand (only_beside remote_wireLeg) answers_wireLeg hi hh) fun r w hi h => ?_
    obtain ⟨leg', stopped⟩ := r
    have hface : leg'.face = leg.face := h.2 _ rfl
    have hid' : leg'.volumeId = some id := (congrArg (fun f => f.2.1) hface).trans hid
    have hmaster' : leg'.masterNode.isSome = true := by
      rw [show leg'.masterNode = leg.masterNode from congrArg (fun f => f.2.2.1) hface]
      exact hmaster
    have hh : Hand t n [] true [(leg'.node, id)] (AsRead p.vol.holding) w := by
      rw [show leg'.node = p.target from (congrArg Prod.fst hface).trans hnode]
      exact h.1
    split
    · rename_i heq
      obtain ⟨rfl, rfl⟩ := Prod.mk.inj heq
      exact safe_undoNew hid' hmaster' hi hh
    · rename_i heq
      obtain ⟨rfl, rfl⟩ := Prod.mk.inj heq
      refine (safe_recordLegs hid' hmaster' hfree hi hh).bind hi (fun ok w hi h => ?_) fun _ _ h => h.elim
      cases ok with
      | true => exact Safe.ret stable_hand (fun _ _ h => h) hi h
      | false => exact safe_undoNew hid' hmaster' hi h

theorem safe_startLegs {«from» reason : String} {«to» : Option String} (hi : LegsInv w) (hs : Idle t w) :
    LegsSafe t (startReplacement cfg t n «from» «to» reason) (fun _ => Idle t) w := by
  refine (safe_claimLegs hi hs).bind hi (fun mine w hi h => ?_) fun _ _ h => h.1
  cases mine with
  | false => exact Safe.fail lasting_idle.stable (fun _ _ h => h) hi h.1
  | true =>
    refine (safe_buildLegs hi (h.2 rfl)).attempt_bind hi fun x w hi hh => ?_
    cases x with
    | ok target =>
      exact (safe_spawnLegs (s := .finish n) hi hh).bind hi
        (fun _ _ hi h => Safe.ret lasting_idle.stable (fun _ _ h => h) hi h) fun _ _ h => h
    | error e =>
      exact (safe_letGoLegs hi hh (.inl rfl)).bind hi
        (fun _ _ hi h => Safe.fail lasting_idle.stable (fun _ _ h => h) hi h) fun _ _ h => h

end

/-! ## Finishing a replacement -/

theorem FedState.volumes_modify {fed fed' : FedState} {n : String} {f : DistVolume → DistVolume}
    (h : fed'.volumes = fed.volumes) : (fed'.modifyVolume n f).volumes = (fed.modifyVolume n f).volumes := by
  simp only [modifyVolume, h]
  cases fed.volumes[n]? with
  | none => exact h
  | some v => rfl

theorem FedState.orphans_modify (fed : FedState) (n : String) (f : DistVolume → DistVolume) :
    (fed.modifyVolume n f).orphans = fed.orphans := by
  unfold modifyVolume
  split <;> rfl

/-- Of the legs, the first one on the node makes place. -/
theorem mem_of_putLeg {node : String} {leg l : Leg} {legs : List Leg} (h : l ∈ legs) :
    l ∈ putLeg node leg legs ∨ legs.find? (·.node = node) = some l := by
  induction legs with
  | nil => cases h
  | cons x xs ih =>
    unfold putLeg
    by_cases hx : x.node = node
    · rw [if_pos hx]
      rcases List.mem_cons.mp h with rfl | h
      · exact .inr (List.find?_cons_of_pos (by simpa using hx))
      · exact .inl (List.mem_cons_of_mem _ h)
    · rw [if_neg hx, List.find?_cons_of_neg (by simpa using hx)]
      rcases List.mem_cons.mp h with rfl | h
      · exact .inl (List.mem_cons_self ..)
      · exact (ih h).imp_left (List.mem_cons_of_mem _)

theorem putLeg_mem (node : String) (leg : Leg) (legs : List Leg) : leg ∈ putLeg node leg legs := by
  induction legs with
  | nil => exact List.mem_singleton_self _
  | cons x xs ih =>
    unfold putLeg
    split
    · exact List.mem_cons_self ..
    · exact List.mem_cons_of_mem _ ih

section

variable {t : Nat} {n node : String} {cs : List String} {X : List (String × String)} {A : Option Holding → Prop}
  {w w' : AppState} {cfg : Config} {h : Holding} {rep : Replacement} {orphan : Option Orphan}

/-- The holder edits the record where it stands; what it drops is gone, or is
left as an orphan. -/
theorem LegsInv.edit {f : DistVolume → DistVolume} {l : List Orphan} (hi : LegsInv w) (hh : Hand t n cs true X A w)
    (hok : Orderly w') (he : w'.engines = w.engines) (hf : w'.fed.volumes = (w.fed.modifyVolume n f).volumes)
    (ho : w'.fed.orphans = w.fed.orphans ++ l) (hu : w'.undertakings = w.undertakings)
    (hr : w'.replacing = w.replacing) (hs : w'.spawned = w.spawned)
    (hkept : ∀ v, w.fed.volumes[n]? = some v → ∀ node id, (node, some id) ∈ v.holding.spots →
      (node, some id) ∈ (f v).holding.spots ∨ (∃ o ∈ l, o.node = node ∧ o.volumeId = id) ∨ Gone node id w)
    (hnew : ∀ v, w.fed.volumes[n]? = some v →
      (f v).name = v.name ∧ (f v).holding.spots ⊆ v.holding.spots ∧ (f v).replacing = none) :
    (LegsInv w' ∧ LegsGuar (some t) w w') ∧ Hand t n cs true X (fun _ => True) w' := by
  have hat : ∀ m, w'.fed.holdingAt m =
      if n = m then (w.fed.volumes[n]?).map fun v => (f v).holding else w.fed.holdingAt m := fun m => by
    rw [← holdingAt_modify, FedState.holdingAt, hf, FedState.holdingAt]
  have hhere := hat n
  rw [if_pos rfl] at hhere
  have hrw : Rewrites n w w' := by
    refine ⟨he, fun m hm => by rw [hat, if_neg (Ne.symm hm)], fun o hm => ho ▸ List.mem_append_left _ hm,
      fun u => by rw [AppState.creating, hu, AppState.creating], fun u => by rw [AppState.deleting, hu, AppState.deleting],
      hr, hs, fun k node id hk hm => ?_⟩
    obtain ⟨v, hv, rfl⟩ := Option.map_eq_some_iff.mp hk
    rcases hkept v hv node id hm with hm | ⟨o, hm, h⟩ | hgone
    · exact .inl (.inl ⟨n, _, hhere.trans (by rw [hv]; rfl), hm⟩)
    · exact .inl (.inr ⟨o, ho ▸ List.mem_append_right _ hm, h⟩)
    · exact .inr hgone
  refine ⟨hi.rewritten hrw hok (.inr (.inl ⟨hh.holds rfl, fun k hk => ?_⟩)) fun k hk => ?_,
    hh.rewritten hrw trivial trivial⟩
  all_goals
    rw [hhere] at hk
    obtain ⟨v, hv, rfl⟩ := Option.map_eq_some_iff.mp hk
    obtain ⟨hname, hsub, hfree⟩ := hnew v hv
  · exact ⟨_, holdingAt_some hv, fun _ => hsub⟩
  · refine ⟨hname.trans (hi.named n _ (holdingAt_some hv)), fun node id hm =>
      hi.given n _ node id (holdingAt_some hv) (hsub hm), fun rep hrep => ?_⟩
    cases hfree.symm.trans hrep

theorem Hand.same (hh : Hand t n cs true X (AsRead h) w) {v : DistVolume} (hv : w.fed.volumes[n]? = some v) :
    v.holding = h :=
  Option.some.inj ((holdingAt_some hv).symm.trans
    (hh.record.resolve_left fun hn => nomatch (holdingAt_some hv).symm.trans hn))

/-- The new leg of a replacement that is given up is taken back. -/
theorem safe_giveUpLegs {owner : Nat} {id : String} (hrep : h.replacing = some rep) (hid : rep.leg.volumeId = some id)
    (hmaster : rep.leg.masterNode.isSome = true) (hi : LegsInv w) (hh : Hand t n cs true [] (AsRead h) w)
    (hgiven : w.given rep.leg.node id = true) :
    LegsSafe t (giveUp cfg owner n rep) (fun _ => Hand t n cs true [] (fun _ => True)) w := by
  refine Safe.bind_total hi total_undoLeg (safe_takeBack lasting_hand hid hmaster hi hh hgiven) fun _ w hi hs => ?_
  refine Safe.step (stable_hand.and stable_gone) (fun s i hi hs _ hok => ?_) hi hs
  have hedit : _ ∧ Hand t n cs true [] (fun _ => True) _ := hi.edit
    (f := fun v => { v with replacing := none, nextRelegAfter := some (i.now + cfg.cooldown) }) (l := []) hs.1 hok rfl rfl
    ((FedState.orphans_modify ..).trans (List.append_nil _).symm) rfl rfl rfl (fun v hv node id' hm => ?_)
    (fun v hv => ⟨rfl, fun x hx => by simp_all [Holding.spots, DistVolume.holding], rfl⟩)
  · exact ⟨hedit.1.1, hedit.1.2, Safe.ret stable_hand (fun _ _ h => h) hedit.1.1 hedit.2⟩
  · have hvrep : v.replacing = some rep := (congrArg Holding.replacing (hs.1.same hv)).trans hrep
    simp only [Holding.spots, DistVolume.holding, hvrep, List.mem_append, Option.map_some, Option.toList_some,
      List.mem_singleton, hid, Prod.mk.injEq, Option.some.injEq] at hm ⊢
    rcases hm with hm | ⟨rfl, rfl⟩
    · exact .inl (.inl hm)
    · exact .inr (.inr hs.2)

/-- The old leg's volume is gone, or left as this orphan. -/
def Retired (h : Holding) (node : String) (orphan : Option Orphan) (w : AppState) : Prop :=
  ∀ id, h.legs.find? (fun l => l.1 = node) = some (node, some id) →
    Gone node id w ∨ ∃ o ∈ orphan.toList, o.node = node ∧ o.volumeId = id

theorem lasting_retired : Lasting t (Retired h node orphan) :=
  ⟨fun _ _ _ _ _ _ hg hs id hid => (hs id hid).imp_left (·.kept hg),
    fun _ _ hb hs id hid => (hs id hid).imp_left (·.kept (u := none) hb.guar)⟩

/-- No record is there, or it is as it was read, and its old leg retired. -/
def MayTurn (t : Nat) (n : String) (cs : List String) (h : Holding) (node : String) (orphan : Option Orphan)
    (w : AppState) : Prop :=
  Hand t n cs true [] (· = none) w ∨ (Hand t n cs true [] (AsRead h) w ∧ Retired h node orphan w)

theorem lasting_mayTurn : Lasting t (MayTurn t n cs h node orphan) := by
  have hr : Lasting t fun s => Hand t n cs true [] (AsRead h) s ∧ Retired h node orphan s :=
    lasting_hand.and lasting_retired
  refine ⟨fun s s' u hu hi hi' hg hs => ?_, fun w w' hb hs => ?_⟩
  · exact hs.imp (stable_hand s s' u hu hi hi' hg) (hr.stable s s' u hu hi hi' hg)
  · exact hs.imp (·.beside hb) (hr.beside w w' hb)

/-- A leg that a swap drops was retired, and the new one was coming. -/
theorem swapped_spots {v : DistVolume} (hrep : h.replacing = some rep) (hold : v.holding = h)
    (hret : Retired h rep.from orphan w) :
    (∀ node id, (node, some id) ∈ v.holding.spots → (node, some id) ∈ (swapLeg rep v).holding.spots ∨
      (∃ o ∈ orphan.toList, o.node = node ∧ o.volumeId = id) ∨ Gone node id w) ∧
    (swapLeg rep v).holding.spots ⊆ v.holding.spots := by
  have hvrep : v.replacing = some rep := (congrArg Holding.replacing hold).trans hrep
  have hput : ∀ l ∈ putLeg rep.from { rep.leg with message := none } v.legs,
      (l.node, l.volumeId) ∈ (swapLeg rep v).holding.spots := fun l hl =>
    List.mem_append_left _ (List.mem_map_of_mem (f := fun l : Leg => (l.node, l.volumeId)) hl)
  refine ⟨fun node id hm => ?_, fun x hx => ?_⟩
  · rcases List.mem_append.mp hm with hm | hm
    · obtain ⟨l, hl, heq⟩ := List.mem_map.mp hm
      have hor : l ∈ putLeg rep.from { rep.leg with message := none } v.legs ∨ _ := mem_of_putLeg hl
      rcases hor with hl | hl
      · exact .inl (heq ▸ hput l hl)
      · have hnode : l.node = rep.from := by simpa using List.find?_some hl
        have hfirst : h.legs.find? (fun l => l.1 = rep.from) = some (rep.from, some id) := by
          rw [← hold, show v.holding.legs = v.legs.map fun l => (l.node, l.volumeId) from rfl, List.find?_map,
            show ((fun l : String × Option String => decide (l.1 = rep.from)) ∘ fun l : Leg => (l.node, l.volumeId)) =
              fun l => decide (l.node = rep.from) from rfl, hl, Option.map_some, heq, ← hnode, (Prod.mk.inj heq).1]
        rw [← (Prod.mk.inj heq).1, hnode]
        exact .inr ((hret id hfirst).symm)
    · rw [show v.holding.replacing = some rep from hvrep] at hm
      refine .inl ?_
      rw [List.mem_singleton.mp hm]
      exact hput { rep.leg with message := none } (putLeg_mem ..)
  · rcases List.mem_append.mp hx with hx | hx
    · obtain ⟨l, hl, rfl⟩ := List.mem_map.mp hx
      rcases mem_putLeg hl with rfl | hl
      · refine List.mem_append_right _ ?_
        rw [show v.holding.replacing = some rep from hvrep]
        exact List.mem_singleton_self _
      · exact List.mem_append_left _ (List.mem_map_of_mem (f := fun l : Leg => (l.node, l.volumeId)) hl)
    · exact absurd hx List.not_mem_nil

/-- The new leg takes the old one's place. -/
theorem safe_swapLegs (hrep : h.replacing = some rep) (hi : LegsInv w) (hs : MayTurn t n cs h rep.from orphan w) :
    LegsSafe t (recordSwap n rep orphan) (fun _ => Hand t n cs true [] (fun _ => True)) w := by
  refine Safe.step lasting_mayTurn.stable (fun s i hi hs _ hok => ?_) hi hs
  have hh : Hand t n cs true [] (fun _ => True) s := by
    rcases hs with hh | ⟨hh, -⟩ <;> exact hh.weaken fun _ _ => trivial
  have hread : ∀ v, s.fed.volumes[n]? = some v → v.holding = h ∧ Retired h rep.from orphan s := by
    intro v hv
    rcases hs with hh | ⟨hh, hret⟩
    · exact absurd (hh.record.symm.trans (holdingAt_some hv)) nofun
    · exact ⟨hh.same hv, hret⟩
  have hedit : ∀ noted : AppState, noted.fed = s.fed ∧ noted.engines = s.engines ∧ noted.undertakings = s.undertakings ∧
      noted.replacing = s.replacing ∧ noted.spawned = s.spawned →
      let s' := noted.revise fun fed => { fed with orphans := fed.orphans ++ orphan.toList }.modifyVolume n (swapLeg rep)
      Orderly s' → (LegsInv s' ∧ LegsGuar (some t) s s') ∧ Hand t n cs true [] (fun _ => True) s' := by
    rintro noted ⟨hfed, heng, hund, hclaims, hsp⟩ s' hok
    exact hi.edit (f := swapLeg rep) (l := orphan.toList) hh hok heng (FedState.volumes_modify (by rw [hfed]))
      ((FedState.orphans_modify ..).trans (by rw [hfed])) hund hclaims hsp
      (fun v hv => (swapped_spots hrep (hread v hv).1 (hread v hv).2).1)
      (fun v hv => ⟨rfl, (swapped_spots hrep (hread v hv).1 (hread v hv).2).2, rfl⟩)
  have hstep : ∀ s', (LegsInv s' ∧ LegsGuar (some t) s s') ∧ Hand t n cs true [] (fun _ => True) s' →
      LegsInv s' ∧ LegsGuar (some t) s s' ∧ LegsSafe t (.ret ()) (fun _ => Hand t n cs true [] (fun _ => True)) s' :=
    fun s' h => ⟨h.1.1, h.1.2, Safe.ret stable_hand (fun _ _ h => h) h.1.1 h.2⟩
  cases hv : s.fed.volumes[n]? with
  | none =>
    simp only [hv] at hok ⊢
    exact hstep _ (hedit s ⟨rfl, rfl, rfl, rfl, rfl⟩ hok)
  | some v =>
    simp only [hv] at hok ⊢
    exact hstep _ (hedit (s.note (.swapped v rep.from)) ⟨rfl, rfl, rfl, rfl, rfl⟩ hok)

theorem total_deleteOld {vid : String} : (deleteOld node vid).Total := by
  refine (total_atomic _).bind fun up => ?_
  split
  · refine (total_attempt _).bind fun _ => (total_attempt _).bind fun x => ?_
    cases x <;> trivial
  · trivial

theorem safe_deleteOld {vid : String} {P : AppState → Prop} (hP : Lasting t P) (hi : LegsInv w) (hs : P w)
    (hgiven : w.given node vid = true) :
    LegsSafe t (deleteOld node vid) (fun x s => P s ∧ (x = .ok true → Gone node vid s)) w := by
  have hlast : Lasting t fun s => P s ∧ s.given node vid = true := hP.and lasting_given
  refine Safe.bind_total hi (total_atomic _) (safe_quietly hlast (only_beside remote_healthy) hi ⟨hs, hgiven⟩)
    fun up w hi hs => ?_
  split
  · refine (safe_quietly hlast (only_beside Engine.remote_act) hi hs).attempt_bind hi fun _ w hi hs => ?_
    refine (safe_deleteOnEngine hP hi hs.1 hs.2).attempt_bind hi fun x w hi hs => ?_
    cases x with
    | ok u => exact Safe.ret (hP.and lasting_gone).stable (fun _ _ h => ⟨h.1, fun _ => h.2⟩) hi ⟨hs.1, hs.2 rfl⟩
    | error e => exact Safe.ret hP.stable (fun _ _ h => ⟨h, fun h => nomatch h⟩) hi hs.1
  · exact Safe.ret hP.stable (fun _ _ h => ⟨h, fun h => nomatch h⟩) hi hs.1

/-- The old leg is deleted, or left as an orphan. -/
theorem safe_retireLeg {old : Leg} (hfirst : h.legs.find? (fun l => l.1 = rep.from) = some (rep.from, old.volumeId))
    (hi : LegsInv w) (hh : Hand t n cs true [] (AsRead h) w)
    (hgiven : ∀ id, old.volumeId = some id → w.given rep.from id = true) :
    LegsSafe t (retire n rep old) (fun x s => match x with
      | .ok orphan => MayTurn t n cs h rep.from orphan s
      | .error _ => Hand t n cs true [] (fun _ => True) s) w := by
  have hlast : Lasting t fun s => Hand t n cs true [] (AsRead h) s ∧
      ∀ id, old.volumeId = some id → s.given rep.from id = true :=
    lasting_hand.and ⟨fun _ _ _ _ _ _ hg hs id hid => hg.given _ _ (hs id hid),
      fun _ _ hb hs id hid => hb.engines.given (hs id hid)⟩
  refine Safe.bind_total hi total_actIf (safe_quietly hlast (only_beside remote_actIf) hi ⟨hh, hgiven⟩) fun _ w hi hs => ?_
  refine Safe.bind_total hi total_actIf (safe_quietly hlast (only_beside remote_actIf) hi hs) fun _ w hi hs => ?_
  split
  · rename_i hid
    refine Safe.ret stable_hand (fun _ _ hh => .inr ⟨hh, fun id hf => ?_⟩) hi hs.1
    rw [hid, hf] at hfirst
    exact absurd (Prod.mk.inj (Option.some.inj hfirst)).2 nofun
  · rename_i vid hid
    refine Safe.bind_total hi total_deleteOld (safe_deleteOld lasting_hand hi hs.1 (hs.2 vid hid)) fun gone w hi hs => ?_
    have hP : Lasting t fun s => Hand t n cs true [] (AsRead h) s ∧ (gone = true → Gone rep.from vid s) := by
      refine lasting_hand.and ⟨fun _ _ _ _ _ _ hg hs hgone => (hs hgone).kept hg, fun _ _ hb hs hgone => ?_⟩
      exact (hs hgone).kept (u := none) hb.guar
    refine Safe.bind_total hi (total_atomic _) (safe_quietly hP (only_beside (remote_ask _)) hi
      ⟨hs.1, fun hg => hs.2 (by rw [hg])⟩) fun now w hi hs => ?_
    refine Safe.ret hP.stable (fun _ _ hs => .inr ⟨hs.1, fun id hf => ?_⟩) hi hs
    rw [hid, hf] at hfirst
    obtain rfl := Option.some.inj (Prod.mk.inj (Option.some.inj hfirst)).2
    cases gone with
    | true => exact .inl (hs.2 rfl)
    | false => exact .inr ⟨_, List.mem_singleton_self _, rfl, rfl⟩

theorem safe_retireLegs (hi : LegsInv w) (hh : Hand t n cs true [] (AsRead h) w) :
    LegsSafe t (retireOld n rep) (fun x s => match x with
      | .ok orphan => MayTurn t n cs h rep.from orphan s
      | .error _ => Hand t n cs true [] (fun _ => True) s) w := by
  refine Safe.step stable_hand (fun s i hi hh _ hok => ⟨hi, (Beside.refl s).guar, ?_⟩) hi hh
  dsimp only
  rw [ret_bind]
  cases hv : s.fed.volumes[n]? with
  | none =>
    have hnone : Hand t n cs true [] (· = none) s := ⟨hh.own, hh.creating, hh.holds, hh.hand, hh.given, holdingAt_none hv, rfl⟩
    exact Safe.ret stable_hand (fun _ _ h => .inl h) hi hnone
  | some v =>
    have hold := hh.same hv
    have hlegs : h.legs.find? (fun l => l.1 = rep.from) =
        (v.legs.find? fun l => l.node = rep.from).map fun l => (l.node, l.volumeId) := by
      rw [← hold, show v.holding.legs = v.legs.map fun l => (l.node, l.volumeId) from rfl, List.find?_map]
      rfl
    simp only [Option.bind_some]
    cases hf : v.legs.find? fun l => l.node = rep.from with
    | none =>
      rw [hf] at hlegs
      exact Safe.ret stable_hand (fun _ _ hh => .inr ⟨hh, fun id hid => nomatch hlegs.symm.trans hid⟩) hi hh
    | some old =>
      rw [hf, Option.map_some] at hlegs
      have hnode : old.node = rep.from := by simpa using List.find?_some hf
      refine safe_retireLeg (hnode ▸ hlegs) hi hh fun id hid => ?_
      refine hi.given n _ rep.from id (holdingAt_some hv) (List.mem_append_left _ (List.mem_map.mpr ⟨old, ?_, ?_⟩))
      · exact List.mem_of_find?_eq_some hf
      · rw [hnode, hid]

theorem safe_finishLegs (hi : LegsInv w) (hh : Hand t n [] true [] (fun _ => True) w) :
    LegsSafe t (finishInner cfg t n) (fun _ => Hand t n [] true [] (fun _ => True)) w := by
  refine Safe.step stable_hand (fun s i hi hh _ hok => ⟨hi, (Beside.refl s).guar, ?_⟩) hi hh
  dsimp only
  rw [ret_bind]
  split
  · exact Safe.ret stable_hand (fun _ _ h => h) hi hh
  · rename_i rep' owner hrep
    obtain ⟨rep, hready, he⟩ := Option.map_eq_some_iff.mp hrep
    obtain rfl : rep = rep' := (Prod.mk.inj he).1
    obtain ⟨v, hv, hvrep⟩ := finishReady_eq hready
    have hread := holdingAt_some hv
    obtain ⟨hid, hmaster⟩ := hi.coming n _ rep hread hvrep
    obtain ⟨id, hid⟩ := Option.isSome_iff_exists.mp hid
    have hgiven : s.given rep.leg.node id = true := by
      refine hi.given n _ _ id hread (List.mem_append_right _ ?_)
      rw [show v.holding.replacing = some rep from hvrep, ← hid]
      exact List.mem_singleton_self _
    refine Safe.bind_total hi (total_atomic _) (safe_quietly (lasting_hand.and lasting_given) (only_beside (remote_ask _)) hi
      ⟨hh.asRead hread, hgiven⟩) fun done w hi hs => ?_
    split
    · refine (safe_retireLegs hi hs.1).bind hi (fun orphan w hi h => ?_) fun _ _ h => h
      exact safe_swapLegs hvrep hi h
    · exact safe_giveUpLegs hvrep hid hmaster hi hs.1 hs.2

theorem safe_finishReplacementLegs (hi : LegsInv w) (hs : Idle t w) :
    LegsSafe t (finishReplacement cfg t n) (fun _ => Idle t) w := by
  refine Safe.step lasting_idle.stable (fun s i hi hs hready hok => ?_) hi hs
  obtain ⟨hi', hg, hh⟩ := hi.spawnedBy (s := .finish n) (of_decide_eq_true hready) hs hok
  refine ⟨hi', hg, ?_⟩
  rw [ret_bind]
  exact (safe_finishLegs hi' hh).attempt_bind hi' fun _ s hi hh => safe_letGoLegs hi hh (.inl rfl)

end

/-! ## The reconciler's passes -/

section

variable {t : Nat} {n : String} {w w' : AppState} {cfg : Config}

theorem holding_afterLoss (fed : FedState) (v : DistVolume) : (afterLoss fed v).holding = v.holding := by
  unfold afterLoss
  split
  · simp only [DistVolume.holding, List.map_map, Holding.mk.injEq, and_true, true_and]
    refine List.map_congr_left fun l _ => ?_
    simp only [Function.comp_apply, loseLeg]
    split <;> rfl
  · rfl

theorem holdingAt_edit {f : DistVolume → DistVolume} (hf : ∀ v, (f v).holding = v.holding) (fed : FedState) (m : String) :
    (fed.modifyVolume n f).holdingAt m = fed.holdingAt m := by
  rw [holdingAt_modify]
  split
  · rename_i he
    rw [← he, FedState.holdingAt]
    simp only [hf]
  · rfl

/-- An edit that leaves legs and replacement. -/
theorem beside_setFed {f : DistVolume → DistVolume} (hf : ∀ v, (f v).holding = v.holding) :
    Beside w (w.setFed (·.modifyVolume n f)) :=
  ⟨enginesLater_of_eq rfl, holdingAt_edit hf w.fed, FedState.orphans_modify .., rfl, rfl, rfl⟩

theorem beside_revise {f : DistVolume → DistVolume} (hf : ∀ v, (f v).holding = v.holding) :
    Beside w (w.revise (·.modifyVolume n f)) :=
  ⟨enginesLater_of_eq rfl, holdingAt_edit hf w.fed, FedState.orphans_modify .., rfl, rfl, rfl⟩

theorem safe_resumeLegs {s : Spawn} (hi : LegsInv w) (hs : Idle t w) :
    LegsSafe t (Orchestrate.resume t s s.name) (fun _ => Idle t) w := by
  refine (safe_claimLegs hi hs).bind hi (fun mine w hi h => ?_) fun _ _ h => h.1
  cases mine with
  | false => exact Safe.ret lasting_idle.stable (fun _ _ h => h) hi h.1
  | true => exact safe_spawnLegs hi (h.2 rfl)

theorem safe_startOrLegs {«from» reason : String} {«to» : Option String} {f : DistVolume → DistVolume}
    (hf : ∀ v, (f v).holding = v.holding) (hi : LegsInv w) (hs : Idle t w) :
    LegsSafe t (do
      match ← (startReplacement cfg t n «from» «to» reason).attempt with
      | .ok _ => return ()
      | .error _ => .modify (·.setFed (·.modifyVolume n f)) : Async Unit) (fun _ => Idle t) w := by
  refine (safe_startLegs hi hs).attempt_bind hi fun x s hi hs => ?_
  cases x with
  | ok _ => exact Safe.ret lasting_idle.stable (fun _ _ h => h) hi hs
  | error e => exact safe_quietly lasting_idle (only_atomic fun _ _ => beside_setFed hf) hi hs

theorem safe_recoverLegs {enabled : Bool} (hi : LegsInv w) (hs : Idle t w) :
    LegsSafe t (recover cfg t enabled) (fun _ => Idle t) w := by
  refine (safe_quietly lasting_idle (only_atomic fun i w => ⟨enginesLater_of_eq rfl, fun m => ?_, rfl, rfl, rfl, rfl⟩) hi
    hs).bind hi (fun p w hi hs => ?_) fun _ _ h => h
  · show ((w.fed.volumes.map fun _ v => afterLoss w.fed v)[m]?).map _ = _
    rw [Std.ExtTreeMap.getElem?_map, Option.map_map]
    exact congrArg (Option.map · _) (funext fun v => holding_afterLoss w.fed v)
  · have hidle := (lasting_idle (t := t)).stable
    refine (Safe.rounds hidle (fun name _ w hi hs => safe_resumeLegs (s := .finish name) hi hs) hi hs).bind hi
      (fun _ w hi hs => ?_) fun _ _ h => h
    refine (Safe.rounds hidle (fun x _ w hi hs => ?_) hi hs).bind hi (fun _ w hi hs => ?_) fun _ _ h => h
    · exact safe_startOrLegs (fun _ => rfl) hi hs
    exact Safe.rounds hidle (fun name _ w hi hs => safe_resumeLegs (s := .assemble name) hi hs) hi hs

theorem safe_rebalanceLegs {active : Bool} (hi : LegsInv w) (hs : Idle t w) :
    LegsSafe t (Rebalance.run cfg t active) (fun _ => Idle t) w := by
  unfold Rebalance.run
  split
  · refine (safe_quietly lasting_idle (only_atomic fun _ w => .refl w) hi hs).bind hi (fun p w hi hs => ?_) fun _ _ h => h
    obtain ⟨moves, now⟩ := p
    refine Safe.rounds (lasting_idle (t := t)).stable (fun x _ w hi hs => ?_) hi hs
    exact safe_startOrLegs (fun _ => rfl) hi hs
  · exact Safe.ret lasting_idle.stable (fun _ _ h => h) hi hs

theorem safe_prestageLegs {node «from» : Option String} {c : Option BandwidthClass} (hi : LegsInv w) (hs : Idle t w) :
    LegsSafe t (Head.prestage cfg t n node «from» c) (fun _ => Idle t) w := by
  refine (safe_quietly lasting_idle (only_atomic fun i w => ?_) hi hs).bind hi (fun x w hi hs => ?_) fun _ _ h => h
  · split
    · exact beside_revise fun _ => rfl
    · exact .refl w
  · cases x with
    | ok f => exact safe_startLegs hi hs
    | error e => exact Safe.fail lasting_idle.stable (fun _ _ h => h) hi hs

end

/-! ## Creating a volume -/

section

variable {t : Nat} {n : String} {cs : List String} {c : Bool} {X : List (String × String)} {A : Option Holding → Prop}
  {w w' : AppState} {cfg : Config} {α : Type} {h : Holding}

/-- What holds at a task's end: `P` of its answer, `E` where it failed. -/
def Outcome {α : Type} (P : α → AppState → Prop) (E : AppState → Prop) : Except Fault α → AppState → Prop
  | .ok a, s => P a s
  | .error _, s => E s

/-- A create that is let in has nothing in hand, and no record is there. -/
theorem safe_enterCreate {check : FedState → Except Fault α} {what : α → Undertaking}
    (hwhat : ∀ a, (what a).task = t ∧ (what a).creates = [n])
    (hfree : ∀ fed a, check fed = .ok a → fed.volumes[n]? = none) (hi : LegsInv w) (hs : Untouched t w) :
    LegsSafe t (enter check what) (Outcome (fun _ => Hand t n [n] false [] (· = none)) (Idle t)) w := by
  refine Safe.step stable_untouched (fun s i hi hs _ hok => ?_) hi hs
  dsimp only at hok ⊢
  split
  · rename_i a ha
    simp only [ha] at hok
    obtain ⟨hi', hg⟩ := hi.enter (hwhat a).1 hok
    exact ⟨hi', hg, Safe.ret stable_hand (fun _ _ h => h) hi'
      (hand_enter hi hs (hwhat a).1 (hwhat a).2 (holdingAt_none (hfree _ a ha)) hok)⟩
  · rename_i e he
    exact ⟨hi, (Beside.refl s).guar, Safe.fail (lasting_idle (t := t)).stable (fun _ _ h => h) hi hs.1⟩

/-- The end of the create: its record refers to the legs in hand. -/
theorem safe_recordMade {vol : SystemTime → DistVolume} (hname : ∀ now, (vol now).name = n)
    (hspots : ∀ now node id, (node, some id) ∈ (vol now).holding.spots ↔ (node, id) ∈ X)
    (hfree : ∀ now, (vol now).replacing = none) (hn : n ∈ cs) (hi : LegsInv w) (hh : Hand t n cs c X (· = none) w) :
    LegsSafe t (Api.recordVolume t n vol) (fun _ => Hand t n cs c [] (fun _ => True)) w := by
  refine Safe.step stable_hand (fun s i hi hh _ hok => ?_) hi hh
  dsimp only at hok ⊢
  set s' := (s.recorded t [n] []).revise fun fed => { fed with volumes := fed.volumes.insert n (vol i.now) } with hs'
  have hat : ∀ m, s'.fed.holdingAt m = if n = m then some (vol i.now).holding else s.fed.holdingAt m := fun m =>
    holdingAt_insert rfl m
  have hhere := hat n
  rw [if_pos rfl] at hhere
  have hrw : Rewrites n s s' := by
    refine ⟨rfl, fun m hm => by rw [hat, if_neg (Ne.symm hm)], fun _ h => h, fun u => (creating_recorded [n] [] u).1,
      fun u => (creating_recorded [n] [] u).2, rfl, rfl, fun k node id hk => ?_⟩
    exact absurd (hh.record.symm.trans hk) nofun
  obtain ⟨hi', hg⟩ := hi.rewritten (t := t) hrw hok (.inl (hh.creating ▸ hn)) fun k hk => by
    obtain rfl := Option.some.inj (hhere.symm.trans hk)
    refine ⟨hname _, fun node id hm => hh.given _ _ ((hspots _ _ _).mp hm), fun rep hrep => ?_⟩
    exact absurd ((hfree i.now).symm.trans hrep) nofun
  refine ⟨hi', hg, Safe.ret stable_hand (fun _ _ h => h) hi' ?_⟩
  have hh' := hh.rewritten (P := fun _ => True) hrw trivial trivial
  refine hh'.drop (fun node id hm => .inr (.inl (.inl ?_))) fun _ _ hm => absurd hm List.not_mem_nil
  exact ⟨n, _, hhere, (hspots _ _ _).mpr hm⟩

theorem only_serves {task : Async α} (ht : task.Only Serves) : task.Only Beside := ht.mono fun _ _ => beside_of_serves

/-- The creator claims its volume. -/
theorem safe_claimMade (hi : LegsInv w) (hh : Hand t n cs false X A w) :
    LegsSafe t (claim t n) (fun x => match x with
      | .ok true => Hand t n cs true X A
      | _ => Hand t n cs false X A) w := by
  refine Safe.step stable_hand (fun s i hi hh _ hok => ?_) hi hh
  dsimp only at hok ⊢
  split
  · exact ⟨hi, (Beside.refl s).guar, Safe.ret stable_hand (fun _ _ h => h) hi hh⟩
  · rename_i hbusy
    rw [if_neg hbusy] at hok
    obtain ⟨hi', hg, hholds⟩ := hi.claimed (Bool.eq_false_of_not_eq_true hbusy) hok
    refine ⟨hi', hg, Safe.ret (a := true) stable_hand (fun _ _ h => h) hi' ?_⟩
    exact ⟨.inr rfl, hh.creating, fun _ => hholds, hh.hand, hh.given, hh.record, hh.erased⟩

theorem safe_letGoMade (hn : n ∈ cs) (hi : LegsInv w) (hh : Hand t n cs true X A w) :
    LegsSafe t (letGo n) (fun _ => Hand t n cs false X A) w := by
  refine Safe.step stable_hand (fun s i hi hh _ hok => ?_) hi hh
  obtain ⟨hi', hg⟩ := hi.letGo hh (.inr hn) hok
  refine ⟨hi', hg, Safe.ret stable_hand (fun _ _ h => h) hi' ?_⟩
  exact ⟨.inl hn, hh.creating, nofun, hh.hand, hh.given, hh.record, hh.erased⟩

/-! ### Assembling it -/

/-- A record that may be written under the name. -/
structure Known (n : String) (h : Holding) (w : AppState) : Prop where
  named : h.name = n
  given : ∀ node id, (node, some id) ∈ h.spots → w.given node id = true
  coming : ∀ rep, h.replacing = some rep → rep.leg.volumeId.isSome = true ∧ rep.leg.masterNode.isSome = true

theorem lasting_known : Lasting t (Known n h) :=
  ⟨fun _ _ _ _ _ _ hg hk => ⟨hk.named, fun node id hm => hg.given _ _ (hk.given node id hm), hk.coming⟩,
    fun _ _ hb hk => ⟨hk.named, fun node id hm => hb.engines.given (hk.given node id hm), hk.coming⟩⟩

/-- The creator writes its copy back. -/
theorem LegsInv.writeBack {v : DistVolume} (hi : LegsInv w) (hh : Hand t n cs c X (AsRead h) w) (hn : n ∈ cs)
    (hk : Known n h w) (hv : v.holding = h) (hok : Orderly w') (he : w'.engines = w.engines)
    (hf : w'.fed.volumes = w.fed.volumes.insert n v) (ho : w'.fed.orphans = w.fed.orphans)
    (hu : w'.undertakings = w.undertakings) (hr : w'.replacing = w.replacing) (hs : w'.spawned = w.spawned) :
    (LegsInv w' ∧ LegsGuar (some t) w w') ∧ Hand t n cs c X (fun _ => True) w' := by
  have hat : ∀ m, w'.fed.holdingAt m = if n = m then some h else w.fed.holdingAt m := fun m =>
    hv ▸ holdingAt_insert hf m
  have hhere := hat n
  rw [if_pos rfl] at hhere
  have hrw : Rewrites n w w' := by
    refine ⟨he, fun m hm => by rw [hat, if_neg (Ne.symm hm)], fun o h => ho ▸ h,
      fun u => by rw [AppState.creating, hu, AppState.creating], fun u => by rw [AppState.deleting, hu, AppState.deleting],
      hr, hs, fun k node id hk hm => .inl (.inl ⟨n, _, hhere, ?_⟩)⟩
    rcases hh.record with hnone | hsome
    · cases hnone.symm.trans hk
    · rwa [Option.some.inj (hk.symm.trans hsome)] at hm
  refine ⟨hi.rewritten hrw hok (.inl (hh.creating ▸ hn)) fun k hk' => ?_, hh.rewritten hrw trivial trivial⟩
  obtain rfl := Option.some.inj (hhere.symm.trans hk')
  exact ⟨hk.named, hk.given, hk.coming⟩

theorem holding_assembled {head : String} {vol vol' : DistVolume} (ha : AssembledFrom head vol vol') :
    vol'.holding = vol.holding := by
  obtain ⟨legs, hlegs, rfl | ⟨array, rfl⟩⟩ := ha <;>
    exact congrArg (fun l => (⟨vol.name, l, vol.replacing⟩ : Holding)) hlegs.volumes

/-- What the end of an assembly writes. -/
theorem writtenBack (stopped : Option Fault) (w : AppState) (n : String) (vol : DistVolume) (after : Option SystemTime) :
    let w' := w.writeBack n { vol with nextAssembleAfter := if stopped.isNone then none else after }
    let w' := if stopped.isNone then w'.revise id else w'
    ∃ v : DistVolume, v.holding = vol.holding ∧ w'.engines = w.engines ∧ w'.fed.volumes = w.fed.volumes.insert n v ∧
      w'.fed.orphans = w.fed.orphans ∧ w'.undertakings = w.undertakings ∧ w'.replacing = w.replacing ∧
      w'.spawned = w.spawned := by
  refine ⟨{ vol with nextAssembleAfter := if stopped.isNone then none else after }, rfl, ?_⟩
  unfold AppState.writeBack
  dsimp only
  cases w.fed.volumes.contains n <;> cases stopped <;> exact ⟨rfl, rfl, rfl, rfl, rfl, rfl⟩

theorem safe_assembleMade (hn : n ∈ cs) (hi : LegsInv w) (hh : Hand t n cs true [] (fun _ => True) w) :
    LegsSafe t (assembleClaimed cfg n) (fun _ => Hand t n cs true [] (fun _ => True)) w := by
  refine Safe.bind (Q := Outcome (fun vol w => Hand t n cs true [] (AsRead vol.holding) w ∧ Known n vol.holding w)
    (Hand t n cs true [] fun _ => True)) hi ?_ (fun vol w hi h => ?_) fun _ _ h => h
  · refine Safe.step stable_hand (fun s i hi hh _ hok => ?_) hi hh
    dsimp only at hok ⊢
    split
    · rename_i vol hvol
      simp only [hvol] at hok
      have hb : Beside s { s.noteHeading n (vol.legs.head?.map (·.node)) with copies := s.copies.insert n (id vol) } :=
        ⟨enginesLater_of_eq rfl, fun _ => rfl, rfl, rfl, rfl, rfl⟩
      have hread := holdingAt_some (assembleReady_ok hvol).1
      have hknown : Known n vol.holding s := ⟨hi.named n _ hread, fun node id => hi.given n _ node id hread,
        fun rep => hi.coming n _ rep hread⟩
      refine ⟨hi.beside hb hok, hb.guar, ?_⟩
      exact Safe.ret (lasting_hand.and lasting_known).stable (fun _ _ h => h) (hi.beside hb hok)
        ⟨(hh.asRead hread).beside hb, (lasting_known (t := t)).beside _ _ hb hknown⟩
    · exact ⟨hi, (Beside.refl s).guar, Safe.fail stable_hand (fun _ _ h => h) hi hh⟩
  · have hlast : Lasting t fun w => Hand t n cs true [] (AsRead vol.holding) w ∧ Known n vol.holding w :=
      lasting_hand.and lasting_known
    refine (safe_beside hlast (only_beside remote_assembleInner) answers_assembleInner hi h).bind hi (fun r w hi h => ?_)
      fun _ _ h => h.1.1.weaken fun _ _ => trivial
    obtain ⟨vol', stopped⟩ := r
    have hsame : vol'.holding = vol.holding := holding_assembled (h.2 _ rfl)
    refine Safe.bind_total (Q := fun _ => Hand t n cs true [] (fun _ => True)) hi (total_atomic _) ?_ fun _ w hi hh => ?_
    · refine Safe.step hlast.stable (fun s i hi hs _ hok => ?_) hi h.1
      have hstep : ∀ s', (LegsInv s' ∧ LegsGuar (some t) s s') ∧ Hand t n cs true [] (fun _ => True) s' →
          LegsInv s' ∧ LegsGuar (some t) s s' ∧
            LegsSafe t (.ret ()) (fun _ => Hand t n cs true [] (fun _ => True)) s' :=
        fun s' h => ⟨h.1.1, h.1.2, Safe.ret stable_hand (fun _ _ h => h) h.1.1 h.2⟩
      refine hstep _ ?_
      obtain ⟨v, hv, he, hf, ho, hu, hr, hs'⟩ := writtenBack stopped s n vol' (some (i.now + cfg.cooldown))
      exact hi.writeBack hs.1 hn hs.2 (hv.trans hsame) hok he hf ho hu hr hs'
    · split
      · exact Safe.ret stable_hand (fun _ _ h => h) hi hh
      · exact Safe.fail stable_hand (fun _ _ h => h) hi hh

theorem safe_wireMade {legs : Nat} (hn : n ∈ cs) (hi : LegsInv w) (hh : Hand t n cs false [] (fun _ => True) w) :
    LegsSafe t (Api.serveCreated cfg t n legs) (fun _ => Hand t n cs false [] (fun _ => True)) w := by
  have hassemble : LegsSafe t (assemble cfg t n) (fun _ => Hand t n cs false [] (fun _ => True)) w := by
    refine (safe_claimMade hi hh).bind hi (fun mine w hi h => ?_) fun _ _ h => h
    cases mine with
    | false => exact Safe.fail stable_hand (fun _ _ h => h) hi h
    | true =>
      refine (safe_assembleMade hn hi h).attempt_bind hi fun r w hi h => ?_
      refine (safe_letGoMade hn hi h).bind hi (fun _ w hi h => ?_) fun _ _ h => h
      exact safe_ofExcept lasting_hand (fun _ _ h => h) hi h
  have hpublish : ∀ w, LegsInv w → Hand t n cs false [] (fun _ => True) w →
      LegsSafe t (do
        let _ ← (publish t n).attempt) (fun _ => Hand t n cs false [] (fun _ => True)) w := fun w hi hh =>
    (safe_quietly lasting_hand (only_serves serves_publish) hi hh).attempt_bind hi fun _ _ hi hh =>
      Safe.ret stable_hand (fun _ _ h => h) hi hh
  have hwire : LegsSafe t (Api.wire cfg t n legs) (fun _ => Hand t n cs false [] (fun _ => True)) w := by
    unfold Api.wire
    split
    · exact hassemble.attempt fun _ _ h => h
    · exact Safe.ret stable_hand (fun _ _ h => h) hi hh
  refine hwire.bind hi (fun x w hi hh => ?_) fun _ _ h => h
  cases x with
  | ok _ => exact hpublish w hi hh
  | error _ => exact Safe.ret stable_hand (fun _ _ h => h) hi hh

/-! ### The request -/

theorem Hand.accounted (hh : Hand t n [n] c [] A w) : Accounted t w := by
  intro m hm
  rw [hh.creating, List.mem_singleton] at hm
  exact hm ▸ hh.referred

theorem Idle.accounted (hs : Idle t w) : Accounted t w := fun _ hm => absurd (hs ▸ hm) List.not_mem_nil

theorem volume_of_free {fed : FedState} (h : fed.taken n = false) : fed.volumes[n]? = none := by
  rw [FedState.taken, Bool.or_eq_false_iff, KeyMap.contains_eq] at h
  exact Option.isNone_iff_eq_none.mp (by rw [← Option.not_isSome, h.1]; rfl)

theorem safe_createLeggedMade {req : Api.CreateVolumeRequest} {hosts : List HostServe} (hi : LegsInv w)
    (hs : Untouched t w) : LegsSafe t (Api.createLegged cfg t req hosts) (fun _ => Accounted t) w := by
  have henter : LegsSafe t (enter (Api.legNameFree req.name) fun _ => { task := t, creates := [req.name] })
      (Outcome (fun _ => Hand t req.name [req.name] false [] (· = none)) (Idle t)) w := by
    refine safe_enterCreate ?_ (fun fed _ h => ?_) hi hs
    · exact fun _ => ⟨rfl, rfl⟩
    · exact volume_of_free ((legNameFree_ok (t := t) h).free _ (List.mem_singleton_self _))
  refine henter.bind hi (fun _ w hi hh => ?_) fun _ _ h => h.accounted
  refine (safe_quietly lasting_hand (only_beside (remote_get _)) hi hh).bind hi (fun x w hi hh => ?_) fun _ _ h => h.accounted
  refine Safe.bind (Q := fun _ => Hand t req.name [req.name] false [] (· = none)) hi
    (safe_ofExcept lasting_hand (fun _ _ h => h) hi hh) (fun r w hi hh => ?_) fun _ _ h => h.accounted
  obtain ⟨rp, picks⟩ := r
  refine (safe_createLegs picks hi hh).bind hi (fun made w hi hh => ?_) fun _ _ h => h.accounted
  dsimp only at hh
  rw [List.append_nil] at hh
  split
  · refine (safe_rollback _ hi hh).bind hi (fun _ w hi hh => ?_) fun _ _ h => h.accounted
    exact Safe.fail stable_hand (fun _ _ h => h.accounted) hi hh
  · rename_i legs
    have hrecord : LegsSafe t (Api.recordVolume t req.name (Api.legged req rp hosts legs))
        (fun _ => Hand t req.name [req.name] false [] (fun _ => True)) w := by
      refine safe_recordMade (fun _ => rfl) (fun now node id => ?_) (fun _ => rfl) (List.mem_singleton_self _) hi hh
      simp [Holding.spots, DistVolume.holding, Api.legged, legSpots, and_comm]
    refine hrecord.bind hi (fun _ w hi hh => ?_) fun _ _ h => h.accounted
    exact (safe_wireMade (List.mem_singleton_self _) hi hh).mono fun _ _ h => h.accounted

theorem safe_createCloneMade {size : Nat} {source : VolumeSource} {hosts : List HostServe} (hi : LegsInv w)
    (hs : Untouched t w) : LegsSafe t (Api.createClone t n size source hosts) (fun _ => Accounted t) w := by
  have henter : LegsSafe t (enter (Api.cloneReady n size source)
      fun c => { task := t, creates := [n], needs := [c.place.parent] })
      (Outcome (fun _ => Hand t n [n] false [] (· = none)) (Idle t)) w := by
    refine safe_enterCreate ?_ (fun fed a h => ?_) hi hs
    · exact fun _ => ⟨rfl, rfl⟩
    · obtain ⟨_, hfree, -⟩ := check_bind.mp h
      exact volume_of_free (nameFree_ok hfree)
  refine henter.bind hi (fun a w hi hh => ?_) fun _ _ h => h.accounted
  refine Safe.bind (Q := fun _ => Accounted t) hi ?_ (fun _ w hi hs => ?_) fun _ _ h => h
  · refine (safe_quietly lasting_hand (only_beside Api.remote_healthyHome) hi hh).bind hi (fun _ w hi hh => ?_)
      fun _ _ h => h.accounted
    split
    · exact Safe.fail stable_hand (fun _ _ h => h.accounted) hi hh
    · have hmake : ∀ node, (Engine.createClone t node n).Only (Calls false) := fun _ => Engine.remote_createVolume nofun
      refine (safe_quietly lasting_hand (only_beside (only_asUpstream (hmake _))) hi hh).bind hi
        (fun r w hi hh => ?_) fun _ _ h => h.accounted
      split
      · exact Safe.fail stable_hand (fun _ _ h => h.accounted) hi hh
      · refine Safe.mono (fun _ _ h => Hand.accounted h) (safe_recordMade ?_ (fun now node id => ?_) ?_
          (List.mem_singleton_self n) hi hh)
        · exact fun _ => rfl
        · simp [Holding.spots, DistVolume.holding, Api.cloneRecord]
        · exact fun _ => rfl
  · refine (safe_quietly lasting_accounted (only_serves serves_publish) hi hs).attempt_bind hi fun _ _ hi hs => ?_
    exact Safe.ret lasting_accounted.stable (fun _ _ h => h) hi hs

theorem safe_createVolumeMade {req : Api.CreateVolumeRequest} (hi : LegsInv w) (hs : Untouched t w) :
    LegsSafe t (Api.createVolume cfg t req) (fun _ => Accounted t) w := by
  have hfail : ∀ {β : Type} {x : Except Fault β} {w}, LegsInv w → Untouched t w →
      LegsSafe t (.ofExcept x : Async β) (Outcome (fun _ => Untouched t) (Accounted t)) w := by
    intro β x w hi hs
    cases x with
    | ok a => exact Safe.ret stable_untouched (fun _ _ h => h) hi hs
    | error e => exact Safe.fail stable_untouched (fun _ _ h => Idle.accounted h.1) hi hs
  refine (hfail hi hs).bind hi (fun hosts w hi hs => ?_) fun _ _ h => h
  split
  · refine (hfail hi hs).bind hi (fun _ w hi hs => ?_) fun _ _ h => h
    exact safe_createCloneMade hi hs
  · refine (hfail hi hs).bind hi (fun _ w hi hs => ?_) fun _ _ h => h
    exact safe_createLeggedMade hi hs

theorem safe_trackedMade {task : Async Unit} (h : LegsSafe t task (fun _ => Accounted t) w) (hi : LegsInv w) :
    LegsSafe t (tracked t task) (fun _ _ => True) w := by
  refine h.attempt_bind hi fun _ w hi hs => Safe.step stable_accounted (fun s i hi hs _ hok => ?_) hi hs
  obtain ⟨hi', hg⟩ := hi.ended hs hok
  exact ⟨hi', hg, Safe.ret (Discipline.stable_const True) (fun _ _ _ => trivial) hi' trivial⟩

end

end StormStorage
