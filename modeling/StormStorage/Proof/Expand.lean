import StormStorage.Expand
import StormStorage.Proof.Remote

/-!
# What a volume's size was earned by

An expand records the new size once every leg, the head's array and the served
volume have it. `Grounded` is what the record of an expand in flight stands
for: its flags mean a grow of the array that found every leg at the target.
A target raised afterwards keeps the flags; where no call raises it over them
(`Steady`), every size was `Earned` (`size_earned`). `not_earned` is a target
raised after the array had grown.

* `At`: what the task that holds the claim knows of the record;
* `safe_expandLegs`, `safe_growHead`, `safe_growServed`: the three phases.
-/

namespace StormStorage.Expand

open Await Task Orchestrate

/-! ## What an expand in flight stands for -/

/-- The array took a grow that found these volumes at `size` or more. -/
def Grew (w : AppState) (node array : String) (legs : List (String × String)) (size : Nat) : Prop :=
  ∃ g ∈ w.grows, g.node = node ∧ g.array = array ∧ ∀ l ∈ legs, size ≤ g.sizes l.1 l.2

/-- Every leg, the array of an assembled volume, and the served volume, if
there is one, have reached `size`. -/
structure Earned (w : AppState) (vol : DistVolume) (size : Nat) : Prop where
  legs : ∀ l ∈ legsOf vol, size ≤ w.sizes l.1 l.2
  array : vol.assembly = .assembled → ∃ node array, vol.head = some node ∧ vol.arrayId = some array ∧
    Grew w node array (legsOf vol) size
  served : ∀ s, servedOf vol = some s → ∃ r ∈ w.servedSizes, r.node = s.node ∧ r.name = s.engineName ∧ size ≤ r.bytes

/-- The array has grown, as the record of the expand says or as it will be
taken to have. -/
def GrownBy (w : AppState) (node array : String) (x : Expansion) : Prop :=
  x.arrayGrown = true ∨ ∃ b, x.arrayBytesBefore = some b ∧ b < w.capacity node array

/-- The array of an expand that has grown found every leg at the target. -/
def Grounded (name : String) (w : AppState) : Prop :=
  ∀ v x node array, w.fed.volumes[name]? = some v → v.expanding = some x → headOf v = .ok (some (node, array)) →
    GrownBy w node array x → Grew w node array (legsOf v) x.toBytes

/-- No target is raised once the array has grown. -/
def Steady (name : String) (w w' : AppState) : Prop :=
  ∀ v v' x x' node array, w.fed.volumes[name]? = some v → w'.fed.volumes[name]? = some v' →
    v.expanding = some x → v'.expanding = some x' → headOf v = .ok (some (node, array)) →
    GrownBy w node array x → x'.toBytes ≤ x.toBytes

/-- A volume's record but for its size and its expand. -/
def standing (v : DistVolume) : DistVolume := { v with sizeBytes := 0, expanding := none }

/-- How far the record is, messages aside. -/
def progress (v : DistVolume) : Nat × Option Expansion :=
  (v.sizeBytes, v.expanding.map fun x => { x with message := none })

def Claims (name : String) (t : Nat) (w : AppState) : Prop := w.replacing[name]? = some { task := t }

/-- What a step of one of the expands, or of the nodes, does. -/
structure ExpandGuar (name : String) (u : Option Nat) (w w' : AppState) : Prop where
  standing : (w'.fed.volumes[name]?).map standing = (w.fed.volumes[name]?).map standing
  sizes : ∀ node id, w.sizes node id ≤ w'.sizes node id
  grows : w.grows ⊆ w'.grows
  served : w.servedSizes ⊆ w'.servedSizes
  claims : ∀ t, u ≠ some t → Claims name t w → Claims name t w' ∧ w'.capacity = w.capacity ∧
    (w'.fed.volumes[name]?).map progress = (w.fed.volumes[name]?).map progress
  earned : ∀ v v', w.fed.volumes[name]? = some v → w'.fed.volumes[name]? = some v' → v'.sizeBytes ≠ v.sizeBytes →
    Earned w v v'.sizeBytes

def expandDiscipline (name : String) : Discipline AppState where
  inv := Grounded name
  ok := Steady name
  guar := ExpandGuar name

abbrev ExpandSafe (name : String) (t : Nat) {α : Type} (task : Async α) (Q : Except Fault α → AppState → Prop)
    (w : AppState) : Prop := task.Safe (expandDiscipline name) t Q w

section

variable {name : String} {t : Nat} {w w' : AppState} {v v₀ : DistVolume} {x y : Expansion} {node array : String}
  {legs : List (String × String)} {size : Nat}

theorem Grew.mono (h : Grew w node array legs size) (hw : w.grows ⊆ w'.grows) : Grew w' node array legs size := by
  obtain ⟨g, hg, hs⟩ := h
  exact ⟨g, hw hg, hs⟩

theorem legsOf_standing (v : DistVolume) : legsOf (standing v) = legsOf v := rfl

theorem headOf_standing (v : DistVolume) : headOf (standing v) = headOf v := rfl

theorem servedOf_standing (v : DistVolume) : servedOf (standing v) = servedOf v := rfl

theorem headOf_eq (h : standing v = standing v₀) : headOf v = headOf v₀ := by
  rw [← headOf_standing v, h, headOf_standing]

theorem legsOf_eq (h : standing v = standing v₀) : legsOf v = legsOf v₀ := by
  rw [← legsOf_standing v, h, legsOf_standing]

theorem servedOf_eq (h : standing v = standing v₀) : servedOf v = servedOf v₀ := by
  rw [← servedOf_standing v, h, servedOf_standing]

/-! ### The claim's holder -/

/-- The task holds the claim, the volume stands as `v₀`, and its expand is at `y`. -/
structure At (name : String) (t : Nat) (v₀ : DistVolume) (y : Expansion) (w : AppState) : Prop where
  claims : Claims name t w
  standing : (w.fed.volumes[name]?).map standing = some (standing v₀)
  progress : (w.fed.volumes[name]?).map progress = some (v₀.sizeBytes, some y)

theorem At.volume (h : At name t v₀ y w) : ∃ v x, w.fed.volumes[name]? = some v ∧ Expand.standing v = Expand.standing v₀ ∧
    v.sizeBytes = v₀.sizeBytes ∧ v.expanding = some x ∧ { x with message := none } = y := by
  obtain ⟨v, hv, hs⟩ := Option.map_eq_some_iff.mp h.standing
  have hp := h.progress
  rw [hv, Option.map_some, Option.some.injEq, Prod.mk.injEq] at hp
  obtain ⟨hsize, hp⟩ := hp
  obtain ⟨x, hx, he⟩ := Option.map_eq_some_iff.mp hp
  exact ⟨v, x, hv, hs, hsize, hx, he⟩

/-- Sizes, grows and served sizes are only added to. -/
structure Onward (w w' : AppState) : Prop where
  sizes : ∀ node id, w.sizes node id ≤ w'.sizes node id
  grows : w.grows ⊆ w'.grows
  served : w.servedSizes ⊆ w'.servedSizes

theorem Onward.refl (w : AppState) : Onward w w := ⟨fun _ _ => Nat.le_refl _, List.Subset.refl _, List.Subset.refl _⟩

theorem ExpandGuar.onward {u : Option Nat} (h : ExpandGuar name u w w') : Onward w w' := ⟨h.sizes, h.grows, h.served⟩

/-- What stays as things only grow. -/
def Lasts (P : AppState → Prop) : Prop := ∀ w w', Onward w w' → P w → P w'

theorem Lasts.stable {P : AppState → Prop} (h : Lasts P) : (expandDiscipline name).Stable t P :=
  fun s s' _ _ _ _ hg hp => h s s' (ExpandGuar.onward hg) hp

theorem Lasts.and {P P' : AppState → Prop} (h : Lasts P) (h' : Lasts P') : Lasts fun s => P s ∧ P' s :=
  fun w w' ho hp => ⟨h w w' ho hp.1, h' w w' ho hp.2⟩

theorem lasts_legs : Lasts fun s => ∀ l ∈ legs, size ≤ s.sizes l.1 l.2 :=
  fun _ _ ho h l hl => (h l hl).trans (ho.sizes l.1 l.2)

theorem lasts_grew : Lasts fun s => Grew s node array legs size := fun _ _ ho h => h.mono ho.grows

theorem stable_at : (expandDiscipline name).Stable t (At name t v₀ y) := fun _ _ _ hu _ _ hg h =>
  have hc := ExpandGuar.claims hg t hu h.claims
  ⟨hc.1, hg.standing.trans h.standing, hc.2.2.trans h.progress⟩

/-- The array's capacity is the claim holder's to change. -/
theorem stable_capacity {b : Nat} :
    (expandDiscipline name).Stable t fun s => At name t v₀ y s ∧ s.capacity node array = b := fun s s' u hu hi hi' hg h =>
  ⟨stable_at s s' u hu hi hi' hg h.1, by rw [(ExpandGuar.claims hg t hu h.1.claims).2.1, h.2]⟩

theorem stable_claims : (expandDiscipline name).Stable t (Claims name t) := fun _ _ _ hu _ _ hg h =>
  (ExpandGuar.claims hg t hu h).1

theorem ExpandGuar.refl (u : Option Nat) (w : AppState) : ExpandGuar name u w w where
  standing := rfl
  sizes _ _ := Nat.le_refl _
  grows := List.Subset.refl _
  served := List.Subset.refl _
  claims _ _ h := ⟨h, rfl, rfl⟩
  earned _ _ hv hv' hne := absurd (congrArg DistVolume.sizeBytes (Option.some.inj (hv'.symm.trans hv))) hne

theorem Claims.eq {u : Nat} (h : Claims name t w) (hu : Claims name u w) : t = u :=
  congrArg Claim.task (Option.some.inj (h.symm.trans hu))

/-! ### The holder's calls -/

/-- A call leaves the records and the claims alone. -/
structure Called (w w' : AppState) : Prop extends Onward w w' where
  fed : w'.fed = w.fed
  replacing : w'.replacing = w.replacing

theorem Called.guar (h : Called w w') (hc : Claims name t w) : ExpandGuar name (some t) w w' where
  standing := by rw [h.fed]
  sizes := h.sizes
  grows := h.grows
  served := h.served
  claims t' hne hc' := absurd (congrArg some (hc.eq hc')) hne
  earned v v' hv hv' hne := by
    rw [h.fed] at hv'
    exact absurd (congrArg DistVolume.sizeBytes (Option.some.inj (hv'.symm.trans hv))) hne

theorem Called.at (h : Called w w') (ha : At name t v₀ y w) : At name t v₀ y w' :=
  ⟨by rw [Claims, h.replacing]; exact ha.claims, by rw [h.fed]; exact ha.standing, by rw [h.fed]; exact ha.progress⟩

/-- The expand is grounded still: the array's capacity is what it was, or a
grow of it found the legs at the target. -/
theorem Called.grounded (h : Called w w') (ha : At name t v₀ y w) (hi : Grounded name w)
    (hcap : ∀ node array, headOf v₀ = .ok (some (node, array)) →
      w'.capacity node array = w.capacity node array ∨ Grew w' node array (legsOf v₀) y.toBytes) : Grounded name w' := by
  intro v x node array hv hx hh hgrown
  rw [h.fed] at hv
  obtain ⟨v', x', hv', hs, -, hx', rfl⟩ := ha.volume
  obtain rfl := Option.some.inj (hv.symm.trans hv')
  obtain rfl := Option.some.inj (hx.symm.trans hx')
  rw [legsOf_eq hs]
  rcases hcap node array (headOf_eq hs ▸ hh) with hc | hg
  · rw [GrownBy, hc] at hgrown
    exact legsOf_eq hs ▸ (hi v x node array hv hx hh hgrown).mono h.grows
  · exact hg

/-- The volume stands at `v₀` with its expand at `y`, and `P`; what is answered
satisfies `R`. -/
def Post (name : String) (t : Nat) (v₀ : DistVolume) (y : Expansion) (P : AppState → Prop) {α : Type}
    (R : α → AppState → Prop) (x : Except Fault α) (s : AppState) : Prop :=
  (At name t v₀ y s ∧ P s) ∧ ∀ a, x = .ok a → R a s

theorem safe_called {α : Type} {P : AppState → Prop} {R : α → AppState → Prop} {eff : Reply → AppState → AppState}
    {answer : Reply → AppState → Except Fault α} (hP : Lasts P)
    (hR : ∀ a, (expandDiscipline name).Stable t fun s => At name t v₀ y s ∧ R a s)
    (hcalled : ∀ i s, Called s (eff i s))
    (hcap : ∀ i s, P s → ∀ node array, headOf v₀ = .ok (some (node, array)) →
      (eff i s).capacity node array = s.capacity node array ∨ Grew (eff i s) node array (legsOf v₀) y.toBytes)
    (hans : ∀ i s a, P s → i.wire = .answered → answer i s = .ok a → R a (eff i s))
    (hi : Grounded name w) (ha : At name t v₀ y w) (hp : P w) :
    ExpandSafe name t (call eff answer) (Post name t v₀ y P R) w := by
  have hQ : ∀ x, (expandDiscipline name).Stable t (Post name t v₀ y P R x) := fun x s s' u hu hi hi' hg h =>
    ⟨⟨stable_at s s' u hu hi hi' hg h.1.1, hP.stable s s' u hu hi hi' hg h.1.2⟩,
      fun a hx => (hR a s s' u hu hi hi' hg ⟨h.1.1, h.2 a hx⟩).2⟩
  refine safe_callOr (stable_at.and hP.stable) hQ (fun s i hi hs _ => ?_) hi ⟨ha, hp⟩
  have hdid : Grounded name (eff i s) ∧ ExpandGuar name (some t) s (eff i s) ∧ At name t v₀ y (eff i s) ∧ P (eff i s) :=
    have hc := hcalled i s
    ⟨hc.grounded hs.1 hi (hcap i s hs.2), hc.guar hs.1.claims, hc.at hs.1, hP _ _ hc.toOnward hs.2⟩
  cases hw : i.wire with
  | answered =>
    exact ⟨⟨hdid.1, hdid.2.1⟩, hdid.2.2, fun a hx => hans i s a hs.2 hw hx⟩
  | refused status why => exact ⟨⟨hi, .refl _ _⟩, hs, nofun⟩
  | lost why => exact ⟨⟨hdid.1, hdid.2.1⟩, hdid.2.2, nofun⟩

theorem safe_asUpstream {α : Type} {P : AppState → Prop} {R : α → AppState → Prop} {task : Async α} {what : String}
    (hP : Lasts P) (hR : ∀ a, (expandDiscipline name).Stable t fun s => At name t v₀ y s ∧ R a s)
    (h : ExpandSafe name t task (Post name t v₀ y P R) w) (hi : Grounded name w) :
    ExpandSafe name t (asUpstream what task) (Post name t v₀ y P R) w := by
  refine h.attempt_bind hi fun x s hi hs => ?_
  cases x with
  | ok a =>
    refine Safe.ret (P := fun s => P s ∧ At name t v₀ y s ∧ R a s) (hP.stable.and (hR a)) (fun _ _ h => ?_) hi
      ⟨hs.1.2, hs.1.1, hs.2 a rfl⟩
    exact ⟨⟨h.2.1, h.1⟩, fun b hb => Except.ok.inj hb ▸ h.2.2⟩
  | error e => exact Safe.fail (stable_at.and hP.stable) (fun _ _ h => ⟨h, nofun⟩) hi hs.1

/-! ### The legs -/

theorem lasts_stable_at {P : AppState → Prop} (h : Lasts P) :
    (expandDiscipline name).Stable t fun s => At name t v₀ y s ∧ P s := stable_at.and h.stable

theorem called_expandVolume (s : AppState) (node id : String) (size : Nat) :
    Called s { s with sizes := fun n i => if n = node ∧ i = id then max (s.sizes n i) size else s.sizes n i } where
  sizes n i := by
    dsimp only
    split
    · exact Nat.le_max_left ..
    · exact Nat.le_refl _
  grows := List.Subset.refl _
  served := List.Subset.refl _
  fed := rfl
  replacing := rfl

theorem safe_expandVolume {P : AppState → Prop} (hP : Lasts P) (l : String × String) (hi : Grounded name w)
    (ha : At name t v₀ y w) (hp : P w) {what : String} :
    ExpandSafe name t (asUpstream what (Engine.expandVolume l.1 l.2 size))
      (Post name t v₀ y P fun _ s => size ≤ s.sizes l.1 l.2) w := by
  have hR : Lasts fun s => size ≤ s.sizes l.1 l.2 := fun _ _ ho h => h.trans (ho.sizes l.1 l.2)
  refine safe_asUpstream hP (fun _ => lasts_stable_at hR) (safe_called hP (fun _ => lasts_stable_at hR)
    (fun _ s => called_expandVolume s _ _ _) (fun _ _ _ _ _ _ => .inl rfl) (fun _ s _ _ _ _ => ?_) hi ha hp) hi
  dsimp only
  rw [if_pos ⟨rfl, rfl⟩]
  exact Nat.le_max_right ..

theorem safe_expandLegs {P : AppState → Prop} (hP : Lasts P) (legs : List (String × String)) (hi : Grounded name w)
    (ha : At name t v₀ y w) (hp : P w) :
    ExpandSafe name t (expandLegs name size legs)
      (Post name t v₀ y P fun _ s => ∀ l ∈ legs, size ≤ s.sizes l.1 l.2) w := by
  induction legs generalizing P w with
  | nil => exact Safe.ret (lasts_stable_at hP) (fun _ _ h => ⟨h, fun _ _ _ hl => absurd hl List.not_mem_nil⟩) hi ⟨ha, hp⟩
  | cons l legs ih =>
    refine (safe_expandVolume hP l hi ha hp).bind hi (fun _ s hi hs => ?_) fun e s hs => ⟨hs.1, nofun⟩
    have hl : Lasts fun s => size ≤ s.sizes l.1 l.2 := fun _ _ ho h => h.trans (ho.sizes l.1 l.2)
    refine (ih (hP.and hl) hi hs.1.1 ⟨hs.1.2, hs.2 () rfl⟩).mono fun x s h => ⟨⟨h.1.1, h.1.2.1⟩, fun a hx l' hl' => ?_⟩
    rcases List.mem_cons.mp hl' with rfl | hl'
    · exact h.1.2.2
    · exact h.2 a hx l' hl'

/-! ### The record -/

theorem modifyExpanding_eq {f : Expansion → Expansion} (hv : w.fed.volumes[name]? = some v) (hx : v.expanding = some x) :
    modifyExpanding name f w =
      w.revise fun fed => { fed with volumes := fed.volumes.insert name { v with expanding := some (f x) } } := by
  rw [modifyExpanding, hv]
  dsimp only
  rw [hx]

/-- A change of this record alone. -/
structure Rewritten (name : String) (v' : DistVolume) (w w' : AppState) : Prop where
  here : w'.fed.volumes[name]? = some v'
  onward : Onward w w'
  capacity : w'.capacity = w.capacity
  replacing : w'.replacing = w.replacing

theorem rewritten_revise (w : AppState) (name : String) (v' : DistVolume) :
    Rewritten name v' w (w.revise fun fed => { fed with volumes := fed.volumes.insert name v' }) where
  here := KeyMap.get_insert_self ..
  onward := ⟨fun _ _ => Nat.le_refl _, List.Subset.refl _, List.Subset.refl _⟩
  capacity := rfl
  replacing := rfl

/-- The holder of the claim writes the record. -/
theorem Rewritten.guar {v' : DistVolume} (h : Rewritten name v' w w') (hc : Claims name t w)
    (hv : w.fed.volumes[name]? = some v) (hs : standing v' = standing v)
    (he : v'.sizeBytes ≠ v.sizeBytes → Earned w v v'.sizeBytes) : ExpandGuar name (some t) w w' where
  standing := by rw [h.here, hv, Option.map_some, Option.map_some, hs]
  sizes := h.onward.sizes
  grows := h.onward.grows
  served := h.onward.served
  claims t' hne hc' := absurd (congrArg some (hc.eq hc')) hne
  earned u u' hu hu' hne := by
    obtain rfl := Option.some.inj (hu.symm.trans hv)
    obtain rfl := Option.some.inj (hu'.symm.trans h.here)
    exact he hne

theorem safe_record {P : AppState → Prop} {f : Expansion → Expansion}
    (hf : ∀ x, { f x with message := none } = f { x with message := none }) (hto : (f y).toBytes = y.toBytes)
    (hstable : ∀ y, (expandDiscipline name).Stable t fun s => At name t v₀ y s ∧ P s)
    (hkeep : ∀ s s' v', Rewritten name v' s s' → P s → P s')
    (hground : ∀ s node array, P s → headOf v₀ = .ok (some (node, array)) → GrownBy s node array (f y) →
      Grew s node array (legsOf v₀) y.toBytes)
    (hi : Grounded name w) (ha : At name t v₀ y w) (hp : P w) :
    ExpandSafe name t (record name f) (fun x s => x = .ok () ∧ At name t v₀ (f y) s ∧ P s) w := by
  refine Safe.step (hstable y) (fun s _ hi hs _ _ => ?_) hi ⟨ha, hp⟩
  obtain ⟨v, x, hv, hstand, hsize, hx, hy⟩ := hs.1.volume
  dsimp only
  rw [modifyExpanding_eq hv hx]
  set v' : DistVolume := { v with expanding := some (f x) } with hv'
  have hr := rewritten_revise s name v'
  set s' := s.revise fun fed => { fed with volumes := fed.volumes.insert name v' }
  have hfy : { f x with message := none } = f y := by rw [hf, hy]
  have ha' : At name t v₀ (f y) s' := by
    refine ⟨hs.1.claims, by rw [hr.here, Option.map_some, ← hstand]; rfl, ?_⟩
    rw [hr.here, Option.map_some, ← hsize, ← hfy]
    rfl
  have hi' : Grounded name s' := by
    intro u z node array hu hz hh hgrown
    obtain rfl := Option.some.inj (hu.symm.trans hr.here)
    obtain rfl := Option.some.inj hz
    rw [show (f x).toBytes = y.toBytes from by rw [← hto, ← hfy], show legsOf v' = legsOf v₀ from legsOf_eq hstand]
    have hgrown : GrownBy s node array (f y) := by
      rw [← hfy]
      exact hgrown
    exact (hground s node array hs.2 (headOf_eq (v := v) hstand ▸ hh) hgrown).mono hr.onward.grows
  exact ⟨hi', hr.guar hs.1.claims hv rfl fun hne => absurd rfl hne,
    Safe.ret (hstable (f y)) (fun _ _ h => ⟨rfl, h⟩) hi' ⟨ha', hkeep s s' v' hr hs.2⟩⟩

/-! ### The head's array -/

/-- The legs have reached the target. -/
abbrev LegsAt (v₀ : DistVolume) (size : Nat) (s : AppState) : Prop := ∀ l ∈ legsOf v₀, size ≤ s.sizes l.1 l.2

theorem called_refl (s : AppState) : Called s s := ⟨.refl s, rfl, rfl⟩

theorem safe_arrayBytes {P : AppState → Prop} (hP : Lasts P) (hi : Grounded name w) (ha : At name t v₀ y w) (hp : P w) :
    ExpandSafe name t (Engine.arrayBytes node array)
      (Post name t v₀ y P fun b s => s.capacity node array = b) w :=
  safe_called hP (fun _ => stable_capacity) (fun _ s => called_refl s) (fun _ _ _ _ _ _ => .inl rfl)
    (fun _ _ _ _ _ h => Except.ok.inj h) hi ha hp

theorem stable_read {b : Nat} : (expandDiscipline name).Stable t fun s =>
    At name t v₀ y s ∧ LegsAt v₀ size s ∧ s.capacity node array = b := fun s s' u hu hi hi' hg h =>
  have hcap := stable_capacity s s' u hu hi hi' hg ⟨h.1, h.2.2⟩
  ⟨hcap.1, lasts_legs.stable s s' u hu hi hi' hg h.2.1, hcap.2⟩

/-- The array's capacity before it grows is in the record. -/
theorem safe_bytesBefore (hh : headOf v₀ = .ok (some (node, array))) (hx : y.arrayGrown = false) (hi : Grounded name w)
    (ha : At name t v₀ y w) (hl : LegsAt v₀ y.toBytes w) :
    ExpandSafe name t (bytesBefore name node array y) (fun x s => ∃ b, At name t v₀ { y with arrayBytesBefore := b } s ∧
      LegsAt v₀ y.toBytes s ∧ ∀ a, x = .ok a → b = some a) w := by
  unfold bytesBefore
  split
  · rename_i b hb
    exact Safe.ret (lasts_stable_at lasts_legs) (fun _ _ h => ⟨some b, hb ▸ h.1, h.2, fun a ha => by rw [Except.ok.inj ha]⟩)
      hi ⟨ha, hl⟩
  · rename_i hb
    refine (safe_asUpstream lasts_legs (fun _ => stable_capacity) (safe_arrayBytes lasts_legs hi ha hl) hi).bind hi
      (fun b s hi hs => ?_) fun _ _ hs => ⟨none, hb ▸ hs.1.1, hs.1.2, nofun⟩
    refine (safe_record (P := fun s => LegsAt v₀ y.toBytes s ∧ s.capacity node array = b) (fun _ => rfl) rfl
      (fun y => stable_read) (fun s s' v' hr h => ?_) (fun s node' array' h hh' hgrown => ?_) hi hs.1.1
      ⟨hs.1.2, hs.2 b rfl⟩).bind hi (fun _ s hi hs => ?_) fun _ _ hs => nomatch hs.1
    · exact ⟨lasts_legs _ _ hr.onward h.1, by rw [hr.capacity, h.2]⟩
    · -- nothing has grown since the capacity was read
      rw [hh, Except.ok.injEq, Option.some.injEq, Prod.mk.injEq] at hh'
      obtain ⟨rfl, rfl⟩ := hh'
      rcases hgrown with hg | ⟨b', hb', hlt⟩
      · exact absurd (hx.symm.trans hg) Bool.false_ne_true
      · obtain rfl := Option.some.inj hb'
        exact absurd hlt (h.2 ▸ Nat.lt_irrefl _)
    · exact Safe.ret stable_read (fun _ _ h => ⟨some b, h.1, h.2.1, fun a ha => by rw [Except.ok.inj ha]⟩) hi hs.2

theorem called_growArray (i : Reply) (s : AppState) (node array : String) :
    Called s { s with
      capacity := fun n a => if n = node ∧ a = array then max (s.capacity n a) i.bytes else s.capacity n a
      grows := s.grows ++ [{ node := node, array := array, sizes := s.sizes }] } where
  sizes _ _ := Nat.le_refl _
  grows := List.subset_append_left ..
  served := List.Subset.refl _
  fed := rfl
  replacing := rfl

theorem grew_growArray {s : AppState} (hl : ∀ l ∈ legs, size ≤ s.sizes l.1 l.2) {c : Sizes} :
    Grew { s with capacity := c, grows := s.grows ++ [{ node := node, array := array, sizes := s.sizes }] }
      node array legs size :=
  ⟨_, List.mem_append_right _ (List.mem_singleton_self _), rfl, rfl, hl⟩

theorem safe_growArray (hi : Grounded name w) (ha : At name t v₀ y w) (hl : LegsAt v₀ y.toBytes w) :
    ExpandSafe name t (Engine.growArray node array)
      (Post name t v₀ y (LegsAt v₀ y.toBytes) fun _ s => Grew s node array (legsOf v₀) y.toBytes) w := by
  refine safe_called lasts_legs (fun _ => lasts_stable_at lasts_grew) (fun i s => called_growArray i s node array)
    (fun i s hl node' array' _ => ?_) (fun i s _ hl _ _ => grew_growArray hl) hi ha hl
  by_cases h : node' = node ∧ array' = array
  · obtain ⟨rfl, rfl⟩ := h
    exact .inr (grew_growArray hl)
  · exact .inl (if_neg h)

/-- A grow that is answered, or shown by the array's capacity. -/
theorem safe_growAnswer {before : Nat} (hh : headOf v₀ = .ok (some (node, array)))
    (hb : y.arrayBytesBefore = some before) (hi : Grounded name w) (ha : At name t v₀ y w) (hl : LegsAt v₀ y.toBytes w) :
    ExpandSafe name t (growAnswer name node array before)
      (Post name t v₀ y (LegsAt v₀ y.toBytes) fun _ s => Grew s node array (legsOf v₀) y.toBytes) w := by
  refine (safe_growArray hi ha hl).attempt_bind hi fun x s hi hs => ?_
  have hfail : ∀ (e : Fault) (s : AppState), Grounded name s → At name t v₀ y s ∧ LegsAt v₀ y.toBytes s →
      ExpandSafe name t (.fail e : Async (Option String))
        (Post name t v₀ y (LegsAt v₀ y.toBytes) fun _ s => Grew s node array (legsOf v₀) y.toBytes) s := fun e s hi hs =>
    Safe.fail (lasts_stable_at lasts_legs) (fun _ _ h => ⟨h, nofun⟩) hi hs
  have hret : ∀ (a : Option String) (s : AppState), Grounded name s → At name t v₀ y s ∧ LegsAt v₀ y.toBytes s →
      Grew s node array (legsOf v₀) y.toBytes → ExpandSafe name t (.ret a : Async (Option String))
        (Post name t v₀ y (LegsAt v₀ y.toBytes) fun _ s => Grew s node array (legsOf v₀) y.toBytes) s :=
    fun a s hi hs hg => Safe.ret (lasts_stable_at (lasts_legs.and lasts_grew))
      (fun _ _ h => ⟨⟨h.1, h.2.1⟩, fun _ _ => h.2.2⟩) hi ⟨hs.1, hs.2, hg⟩
  cases x with
  | ok short => exact hret short s hi hs.1 (hs.2 _ rfl)
  | error e =>
    dsimp only
    split
    · refine (safe_arrayBytes lasts_legs hi hs.1.1 hs.1.2).attempt_bind hi fun x s hi hs => ?_
      split
      · exact hfail _ s hi hs.1
      · rename_i hgt
        cases x with
        | error e => exact absurd (Nat.le_refl _) hgt
        | ok now =>
          -- the capacity is above what the record says it was
          obtain ⟨v, x, hv, hstand, -, hx, rfl⟩ := hs.1.1.volume
          have hgrown : GrownBy s node array x := .inr ⟨before, hb, by rw [hs.2 now rfl]; exact Nat.lt_of_not_le hgt⟩
          have hg := hi v x node array hv hx (headOf_eq hstand ▸ hh) hgrown
          exact hret none s hi hs.1 (legsOf_eq hstand ▸ hg)
    · exact hfail _ s hi hs.1

/-- The array has grown, with every leg at the target, or the try fails. -/
theorem safe_growHead (hh : headOf v₀ = .ok (some (node, array))) (hx : y.arrayGrown = false) (hi : Grounded name w)
    (ha : At name t v₀ y w) (hl : LegsAt v₀ y.toBytes w) :
    ExpandSafe name t (growHead name node array y) (fun x s => (∃ z, At name t v₀ z s ∧ z.toBytes = y.toBytes) ∧
      LegsAt v₀ y.toBytes s ∧ (x = .ok () → Grew s node array (legsOf v₀) y.toBytes)) w := by
  refine (safe_bytesBefore hh hx hi ha hl).bind hi (fun before s hi hs => ?_) fun e s ⟨b, ha, hl, _⟩ =>
    ⟨⟨_, ha, rfl⟩, hl, nofun⟩
  obtain ⟨b, ha, hl, hb⟩ := hs
  obtain rfl := hb before rfl
  refine (safe_growAnswer hh rfl hi ha hl).bind hi (fun short s hi hs => ?_) fun e s hs =>
    ⟨⟨_, hs.1.1, rfl⟩, hs.1.2, nofun⟩
  have hP : Lasts fun s => LegsAt v₀ y.toBytes s ∧ Grew s node array (legsOf v₀) y.toBytes := lasts_legs.and lasts_grew
  refine (safe_record (P := fun s => LegsAt v₀ y.toBytes s ∧ Grew s node array (legsOf v₀) y.toBytes)
    (f := fun x => { x with arrayGrown := true, slabShort := short }) (fun _ => rfl) rfl (fun _ => lasts_stable_at hP)
    (fun s s' v' hr h => hP _ _ hr.onward h) (fun s node' array' h hh' _ => ?_) hi hs.1.1 ⟨hs.1.2, hs.2 _ rfl⟩).bind hi
    (fun _ s hi hs => ?_) fun _ _ hs => nomatch hs.1
  · rw [hh, Except.ok.injEq, Option.some.injEq, Prod.mk.injEq] at hh'
    obtain ⟨rfl, rfl⟩ := hh'
    exact h.2
  · split
    · exact Safe.fail (lasts_stable_at hP) (fun _ _ h => ⟨⟨_, h.1, rfl⟩, h.2.1, nofun⟩) hi hs.2
    · exact Safe.ret (lasts_stable_at hP) (fun _ _ h => ⟨⟨_, h.1, rfl⟩, h.2.1, fun _ => h.2.2⟩) hi hs.2

/-! ### The served volume and the record -/

theorem called_servedSize (i : Reply) (s : AppState) (node id : String) :
    Called s (if i.wire = .answered then
      { s with servedSizes := s.servedSizes ++ [{ node := node, name := id, bytes := i.bytes }] } else s) := by
  split
  · exact ⟨⟨fun _ _ => Nat.le_refl _, List.Subset.refl _, List.subset_append_left ..⟩, rfl, rfl⟩
  · exact called_refl s

theorem lasts_served {node id : String} {b : Nat} :
    Lasts fun s => ∃ r ∈ s.servedSizes, r.node = node ∧ r.name = id ∧ b ≤ r.bytes :=
  fun _ _ ho ⟨r, hr, h⟩ => ⟨r, ho.served hr, h⟩

theorem safe_growServed {P : AppState → Prop} (hP : Lasts P) (s : Served) (hi : Grounded name w) (ha : At name t v₀ y w)
    (hp : P w) : ExpandSafe name t (growServed name size s) (Post name t v₀ y P fun _ w =>
      ∃ r ∈ w.servedSizes, r.node = s.node ∧ r.name = s.engineName ∧ size ≤ r.bytes) w := by
  refine (safe_expandVolume hP (s.node, s.id) hi ha hp).bind hi (fun _ w hi hw => ?_) fun _ _ hw => ⟨hw.1, nofun⟩
  have hread : ExpandSafe name t (Engine.servedSize s.node s.engineName) (Post name t v₀ y P fun b w =>
      ∃ r ∈ w.servedSizes, r.node = s.node ∧ r.name = s.engineName ∧ b ≤ r.bytes) w := by
    refine safe_called hP (fun _ => lasts_stable_at lasts_served) (fun i w => called_servedSize i w s.node s.engineName)
      (fun i w _ _ _ _ => .inl (by split <;> rfl)) (fun i w b _ hans hb => ?_) hi hw.1.1 hw.1.2
    obtain rfl := Except.ok.inj hb
    rw [if_pos hans]
    exact ⟨_, List.mem_append_right _ (List.mem_singleton_self _), rfl, rfl, Nat.le_refl _⟩
  refine (safe_asUpstream hP (fun _ => lasts_stable_at lasts_served) hread hi).bind hi (fun b w hi hw => ?_)
    fun _ _ hw => ⟨hw.1, nofun⟩
  have hst : Lasts fun w => P w ∧ ∃ r ∈ w.servedSizes, r.node = s.node ∧ r.name = s.engineName ∧ b ≤ r.bytes :=
    hP.and lasts_served
  dsimp only
  split
  · exact Safe.fail (lasts_stable_at hP) (fun _ _ h => ⟨h, nofun⟩) hi hw.1
  · rename_i hle
    refine Safe.ret (lasts_stable_at hst) (fun _ _ h => ⟨⟨h.1, h.2.1⟩, fun _ _ => ?_⟩) hi ⟨hw.1.1, hw.1.2, hw.2 b rfl⟩
    obtain ⟨r, hr, hn, hid, hb⟩ := h.2.2
    exact ⟨r, hr, hn, hid, (Nat.le_of_not_lt hle).trans hb⟩

/-- The size is recorded once it is earned. -/
theorem safe_finish {P : AppState → Prop} (hP : Lasts P) (hearned : ∀ s v, P s → standing v = standing v₀ → Earned s v size)
    (hi : Grounded name w) (ha : At name t v₀ y w) (hp : P w) :
    ExpandSafe name t (finish name size) (fun _ s => Claims name t s) w := by
  refine Safe.step (lasts_stable_at hP) (fun s i hi hs _ _ => ?_) hi ⟨ha, hp⟩
  obtain ⟨v, x, hv, hstand, -, -, -⟩ := hs.1.volume
  simp only [volumeIn_eq.mpr hv]
  set v' : DistVolume := { v with sizeBytes := size, expanding := none }
  have hr := rewritten_revise s name v'
  refine ⟨fun u z node array hu hz => ?_, hr.guar hs.1.claims hv rfl fun _ => hearned s v hs.2 hstand,
    Safe.ret stable_claims (fun _ _ h => h) (fun u z node array hu hz => ?_) hs.1.claims⟩ <;>
  · obtain rfl := Option.some.inj (hu.symm.trans hr.here)
    cases hz

/-! ### The whole expand -/

/-- What a task knows of its plan. -/
structure Planned (name : String) (t : Nat) (p : Plan) (x : Expansion) (w : AppState) : Prop where
  «at» : At name t p.vol x w
  /-- An array that had grown found the legs at the target. -/
  grown : x.arrayGrown = true → ∀ l ∈ p.head, Grew w l.1 l.2 (legsOf p.vol) x.toBytes

theorem lasts_grown {p : Plan} {x : Expansion} {P : Prop} :
    Lasts fun s => P → ∀ l ∈ p.head, Grew s l.1 l.2 (legsOf p.vol) x.toBytes :=
  fun _ _ ho h hp l hl => (h hp l hl).mono ho.grows

theorem stable_planned {p : Plan} {x : Expansion} : (expandDiscipline name).Stable t (Planned name t p x) :=
  fun s s' u hu hi hi' hg h => ⟨stable_at s s' u hu hi hi' hg h.at, lasts_grown s s' (ExpandGuar.onward hg) h.grown⟩

theorem safe_begin {«to» : Nat} (hi : Grounded name w) (hc : Claims name t w) :
    ExpandSafe name t («begin» name «to») (fun r s => Claims name t s ∧ ∀ p, r = .ok (some p) →
      ∀ x, p.vol.expanding = some x → Planned name t p x s ∧ p.legs = legsOf p.vol ∧ headOf p.vol = .ok p.head ∧
        p.served = servedOf p.vol) w := by
  refine Safe.step stable_claims (fun s i hi hc _ hok => ?_) hi hc
  dsimp only at hok ⊢
  cases hplan : plan s.fed name «to» i.now with
  | error e =>
    dsimp only
    exact ⟨hi, .refl _ _, Safe.fail stable_claims (fun _ _ h => ⟨h, fun _ he => nomatch he⟩) hi hc⟩
  | ok r =>
    cases r with
    | none =>
      dsimp only
      exact ⟨hi, .refl _ _, Safe.ret stable_claims (fun _ _ h => ⟨h, fun _ he => nomatch he⟩) hi hc⟩
    | some p =>
      obtain ⟨v, hv, hvol, hlegs, hhead, hserved⟩ := plan_ok hplan
      simp only [hplan] at hok
      dsimp only
      have hr := rewritten_revise s name p.vol
      set s' := s.revise fun fed => { fed with volumes := fed.volumes.insert name p.vol }
      have hstand : standing p.vol = standing v := by rw [hvol]; rfl
      have hexp : p.vol.expanding = some (aim v.expanding (target v «to») i.now) := by rw [hvol]
      -- a flag that the record had holds of the new target as well
      have hground : ∀ node array, headOf p.vol = .ok (some (node, array)) →
          GrownBy s node array (aim v.expanding (target v «to») i.now) →
          Grew s node array (legsOf p.vol) (aim v.expanding (target v «to») i.now).toBytes := by
        intro node array hh hgrown
        cases hx : v.expanding with
        | none =>
          rw [hx] at hgrown
          rcases hgrown with h | ⟨b, h, -⟩ <;> cases h
        | some x =>
          rw [hx] at hgrown hexp
          have hle := hok v p.vol x _ node array hv hr.here hx hexp (headOf_eq hstand ▸ hh) hgrown
          obtain ⟨g, hg, hn, ha, hl⟩ := hi v x node array hv hx (headOf_eq hstand ▸ hh) hgrown
          exact ⟨g, hg, hn, ha, fun l h => hle.trans (hl l (legsOf_eq hstand ▸ h))⟩
      have hi' : Grounded name s' := by
        intro u x node array hu hx hh hgrown
        obtain rfl := Option.some.inj (hu.symm.trans hr.here)
        obtain rfl := Option.some.inj (hx.symm.trans hexp)
        exact hground node array hh hgrown
      have hguar : ExpandGuar name (some t) s s' := hr.guar hc hv hstand fun hne => absurd (by rw [hvol]) hne
      refine ⟨hi', hguar, ?_⟩
      have hat : At name t p.vol (aim v.expanding (target v «to») i.now) s' := by
        refine ⟨hc, by rw [hr.here]; rfl, ?_⟩
        rw [hr.here, Option.map_some, progress, hexp]
        cases v.expanding <;> rfl
      have hplanned : Planned name t p (aim v.expanding (target v «to») i.now) s' := by
        refine ⟨hat, fun hx l hl => ?_⟩
        obtain ⟨node, array⟩ := l
        exact (hground node array (by rw [hhead, hl]) (.inl hx)).mono hr.onward.grows
      refine Safe.ret stable_planned (fun u _ h => ⟨h.at.claims, fun q hq x hx => ?_⟩) hi' hplanned
      obtain rfl := Option.some.inj (Except.ok.inj hq)
      obtain rfl := Option.some.inj (hx.symm.trans hexp)
      exact ⟨h, hlegs, hhead, hserved⟩

theorem safe_growHeads {p : Plan} {x : Expansion} (hh : headOf p.vol = .ok p.head) (hi : Grounded name w)
    (hp : Planned name t p x w) (hl : LegsAt p.vol x.toBytes w) :
    ExpandSafe name t (growHeads name p x) (fun r s => (∃ z, At name t p.vol z s ∧ z.toBytes = x.toBytes) ∧
      LegsAt p.vol x.toBytes s ∧ (r = .ok () → ∀ l ∈ p.head, Grew s l.1 l.2 (legsOf p.vol) x.toBytes)) w := by
  have hdone : ∀ {w}, Grounded name w → At name t p.vol x w → LegsAt p.vol x.toBytes w →
      (∀ l ∈ p.head, Grew w l.1 l.2 (legsOf p.vol) x.toBytes) → ExpandSafe name t (pure () : Async Unit) (fun r s =>
        (∃ z, At name t p.vol z s ∧ z.toBytes = x.toBytes) ∧ LegsAt p.vol x.toBytes s ∧
          (r = .ok () → ∀ l ∈ p.head, Grew s l.1 l.2 (legsOf p.vol) x.toBytes)) w := by
    intro w hi ha hl hg
    have hlast : Lasts fun s => ∀ l ∈ p.head, Grew s l.1 l.2 (legsOf p.vol) x.toBytes :=
      fun _ _ ho h l hl => (h l hl).mono ho.grows
    exact Safe.ret (lasts_stable_at (lasts_legs.and hlast)) (fun _ _ h => ⟨⟨x, h.1, rfl⟩, h.2.1, fun _ => h.2.2⟩) hi
      ⟨ha, hl, hg⟩
  unfold growHeads
  split
  · rename_i hx
    exact hdone hi hp.at hl (hp.grown hx)
  · rename_i hx
    cases hhead : p.head with
    | none =>
      rw [hhead] at hdone
      exact hdone hi hp.at hl fun l hl => by cases hl
    | some l =>
      obtain ⟨node, array⟩ := l
      refine (safe_growHead (hh.trans (by rw [hhead])) (Bool.eq_false_of_not_eq_true hx) hi hp.at hl).bind hi
        (fun _ s hi hs => ?_) fun _ _ hs => ⟨hs.1, hs.2.1, nofun⟩
      obtain ⟨⟨z, hz, hto⟩, hl, hg⟩ := hs
      refine Safe.ret (lasts_stable_at (lasts_legs.and lasts_grew)) (fun _ _ h => ⟨⟨z, h.1, hto⟩, h.2.1, fun _ l hl => ?_⟩) hi
        ⟨hz, hl, hg rfl⟩
      obtain rfl := Option.some.inj hl
      exact h.2.2

theorem safe_carryOut {p : Plan} {x : Expansion} (hlegs : p.legs = legsOf p.vol) (hh : headOf p.vol = .ok p.head)
    (hserved : p.served = servedOf p.vol) (hi : Grounded name w) (hp : Planned name t p x w) :
    ExpandSafe name t (carryOut name p x) (fun _ s => Claims name t s) w := by
  refine (safe_expandLegs lasts_grown p.legs hi hp.at hp.grown).bind hi (fun _ s hi hs => ?_) fun _ _ hs => hs.1.1.claims
  have hl : LegsAt p.vol x.toBytes s := fun l hl => hs.2 () rfl l (hlegs ▸ hl)
  refine (safe_growHeads hh hi ⟨hs.1.1, hs.1.2⟩ hl).bind hi (fun _ s hi hs => ?_) fun _ _ ⟨⟨z, hz, _⟩, _⟩ => hz.claims
  obtain ⟨⟨z, hz, -⟩, hl, hg⟩ := hs
  have hlast : Lasts fun s => LegsAt p.vol x.toBytes s ∧ ∀ l ∈ p.head, Grew s l.1 l.2 (legsOf p.vol) x.toBytes :=
    lasts_legs.and fun _ _ ho h l hl => (h l hl).mono ho.grows
  have hearned : ∀ s v, (LegsAt p.vol x.toBytes s ∧ ∀ l ∈ p.head, Grew s l.1 l.2 (legsOf p.vol) x.toBytes) →
      (∀ u ∈ p.served, ∃ r ∈ s.servedSizes, r.node = u.node ∧ r.name = u.engineName ∧ x.toBytes ≤ r.bytes) →
      standing v = standing p.vol → Earned s v x.toBytes := by
    intro s v ⟨hl, hg⟩ hs hv
    refine ⟨legsOf_eq hv ▸ hl, fun hasm => ?_, fun u hu => hs u (by rw [hserved, ← servedOf_eq hv]; exact hu)⟩
    have hhv : headOf v = .ok p.head := (headOf_eq hv).trans hh
    unfold headOf at hhv
    split at hhv
    · rename_i node array _ hn ha
      have hhead := Except.ok.inj hhv
      exact ⟨node, array, hn, ha, legsOf_eq hv ▸ hg (node, array) hhead.symm⟩
    · cases hhv
    · rename_i hne _
      exact absurd hasm hne
  cases hserve : p.served with
  | none =>
    exact safe_finish hlast (fun s v h => hearned s v h fun u hu => by rw [hserve] at hu; cases hu) hi hz ⟨hl, hg rfl⟩
  | some u =>
    have hgrow : ExpandSafe name t (Task.forEach (some u).toList (growServed name x.toBytes))
        (Post name t p.vol z (fun s => LegsAt p.vol x.toBytes s ∧ ∀ l ∈ p.head, Grew s l.1 l.2 (legsOf p.vol) x.toBytes)
          fun _ s => ∃ r ∈ s.servedSizes, r.node = u.node ∧ r.name = u.engineName ∧ x.toBytes ≤ r.bytes) s :=
      (safe_growServed hlast u hi hz ⟨hl, hg rfl⟩).bind hi (fun _ s hi hs =>
        Safe.ret (lasts_stable_at (hlast.and lasts_served)) (fun _ _ h => ⟨⟨h.1, h.2.1⟩, fun _ _ => h.2.2⟩) hi
          ⟨hs.1.1, hs.1.2, hs.2 () rfl⟩) fun _ _ hs => ⟨hs.1, nofun⟩
    refine hgrow.bind hi (fun _ s hi hs => ?_) fun _ _ hs => hs.1.1.claims
    refine safe_finish (hlast.and lasts_served) (fun s v h => hearned s v h.1 fun u' hu' => ?_) hi hs.1.1
      ⟨hs.1.2, hs.2 () rfl⟩
    obtain rfl := Option.some.inj (hserve.symm.trans hu')
    exact h.2

theorem safe_expandClaimed {«to» : Nat} (hi : Grounded name w) (hc : Claims name t w) :
    ExpandSafe name t (expandClaimed name «to») (fun _ s => Claims name t s) w := by
  refine (safe_begin hi hc).bind hi (fun r s hi hs => ?_) fun _ _ hs => hs.1
  split
  · exact Safe.ret stable_claims (fun _ _ h => h) hi hs.1
  · rename_i p
    split
    · exact Safe.ret stable_claims (fun _ _ h => h) hi hs.1
    · rename_i x hx
      obtain ⟨hp, hlegs, hh, hserved⟩ := hs.2 p rfl x hx
      split
      · exact Safe.fail stable_claims (fun _ _ h => h) hi hs.1
      · exact safe_carryOut hlegs hh hserved hi hp

/-- Whoever writes a message leaves the progress as it is. -/
theorem safe_message {m : Option String} (hi : Grounded name w) :
    ExpandSafe name t (record name fun x => { x with message := m }) (fun _ _ => True) w := by
  refine Safe.step (Discipline.stable_const True) (fun s _ hi _ _ _ => ?_) hi trivial
  have hret : ∀ {s}, Grounded name s → ExpandSafe name t (.ret () : Async Unit) (fun _ _ => True) s := fun hi =>
    Safe.ret (Discipline.stable_const True) (fun _ _ h => h) hi trivial
  dsimp only
  unfold modifyExpanding
  split
  · exact ⟨hi, .refl _ _, hret hi⟩
  · rename_i v hv
    split
    · exact ⟨hi, .refl _ _, hret hi⟩
    · rename_i x hx
      set v' : DistVolume := { v with expanding := some { x with message := m } }
      have hr := rewritten_revise s name v'
      set s' := s.revise fun fed => { fed with volumes := fed.volumes.insert name v' }
      have hi' : Grounded name s' := by
        intro u z node array hu hz hh hgrown
        obtain rfl := Option.some.inj (hu.symm.trans hr.here)
        obtain rfl := Option.some.inj hz
        exact (hi v x node array hv hx hh hgrown).mono hr.onward.grows
      refine ⟨hi', ⟨by rw [hr.here, hv]; rfl, hr.onward.sizes, hr.onward.grows, hr.onward.served, fun t' _ hc =>
        ⟨hc, rfl, by rw [hr.here, hv, Option.map_some, Option.map_some, progress, progress, hx]; rfl⟩, fun u u' hu hu' hne => ?_⟩,
        hret hi'⟩
      obtain rfl := Option.some.inj (hu.symm.trans hv)
      obtain rfl := Option.some.inj (hu'.symm.trans hr.here)
      exact absurd rfl hne

theorem safe_expand {«to» : Nat} (hi : Grounded name w) :
    ExpandSafe name t (expand t name «to») (fun _ _ => True) w := by
  have hclaim : ExpandSafe name t (claim t name) (fun x s => x = .ok true → Claims name t s) w := by
    refine Safe.step (Discipline.stable_const True) (fun s _ hi _ _ _ => ?_) hi trivial
    dsimp only
    split
    · exact ⟨hi, .refl _ _, Safe.ret (Discipline.stable_const True) (fun _ _ _ => nofun) hi trivial⟩
    · rename_i hfree
      have hc : Claims name t { s with replacing := s.replacing.insert name { task := t } } := KeyMap.get_insert_self ..
      refine ⟨hi, ⟨rfl, fun _ _ => Nat.le_refl _, List.Subset.refl _, List.Subset.refl _, fun t' _ hc' => ?_,
        fun u u' hu hu' hne => ?_⟩, Safe.ret stable_claims (fun _ _ h _ => h) hi hc⟩
      · rw [KeyMap.contains_eq, show s.replacing[name]? = _ from hc'] at hfree
        exact absurd rfl hfree
      · exact absurd (congrArg DistVolume.sizeBytes (Option.some.inj (hu'.symm.trans hu))) hne
  refine hclaim.bind hi (fun mine s hi hs => ?_) fun _ _ _ => trivial
  cases mine with
  | false => exact Safe.fail (Discipline.stable_const True) (fun _ _ h => h) hi trivial
  | true =>
    refine (safe_expandClaimed hi (hs rfl)).attempt_bind hi fun r s hi hc => ?_
    refine Safe.step stable_claims (fun s _ hi hc _ _ => ?_) hi hc
    refine ⟨hi, ⟨rfl, fun _ _ => Nat.le_refl _, List.Subset.refl _, List.Subset.refl _, fun t' hne hc' =>
      absurd (congrArg some (Claims.eq hc hc')) hne, fun u u' hu hu' hne => ?_⟩, ?_⟩
    · exact absurd (congrArg DistVolume.sizeBytes (Option.some.inj (hu'.symm.trans hu))) hne
    · dsimp only
      cases r with
      | ok _ => exact Safe.ret (Discipline.stable_const True) (fun _ _ h => h) hi trivial
      | error e =>
        rw [ret_bind]
        refine Safe.bind hi (safe_message hi) (fun _ _ hi _ => ?_) fun _ _ _ => trivial
        exact Safe.fail (Discipline.stable_const True) (fun _ _ h => h) hi trivial

end

/-! ## Runs -/

/-- A volume's size was earned when it was recorded, in every run of expands
that raise no target over an array that has grown. -/
theorem size_earned {name : String} {w : AppState} (hw : ∀ v, w.fed.volumes[name]? = some v → v.expanding = none)
    {p p' : Pool Reply AppState Fault} (hrun : (expands name).Run (Steady name) ⟨w, []⟩ p)
    {m : Move Reply (expands name).Op (expands name).Env} (hstep : (expands name).step p m = some p')
    (hok : Steady name p.state p'.state) {v v' : DistVolume} (hv : p.state.fed.volumes[name]? = some v)
    (hv' : p'.state.fed.volumes[name]? = some v') (hne : v'.sizeBytes ≠ v.sizeBytes) :
    Earned p.state v v'.sizeBytes := by
  have hprog : ∀ t op s, Grounded name s →
      ((expands name).prog t op).Safe (expandDiscipline name) t (fun _ _ => True) s := fun _ _ _ hi => safe_expand hi
  have henv : ∀ e s, Grounded name s → Steady name s ((expands name).env e s) →
      Grounded name ((expands name).env e s) ∧ ExpandGuar name none s ((expands name).env e s) := fun e s hi _ =>
    ⟨hi, rfl, fun _ _ => Nat.le_refl _, List.Subset.refl _, List.Subset.refl _, fun _ _ hc => ⟨hc, rfl, rfl⟩,
      fun _ _ hu hu' hne => absurd (congrArg DistVolume.sizeBytes (Option.some.inj (hu'.symm.trans hu))) hne⟩
  have hstart : Grounded name w := fun v x _ _ hv hx => by rw [hw v hv] at hx; cases hx
  have hk : System.Run.Kept (expandDiscipline name) p := by
    refine System.Run.safe hprog henv ?_ rfl hrun
    exact hstart
  obtain ⟨-, -, hsame | ⟨u, -, hg⟩⟩ := System.Run.kept_step (fun op => hprog _ op _ hk.1) henv hk hstep hok
  · rw [hsame, hv, Option.some.injEq] at hv'
    exact absurd (congrArg DistVolume.sizeBytes hv'.symm) hne
  · exact hg.earned v v' hv hv' hne

/-- The target of the expand in flight is not raised. -/
def level (name : String) (w w' : AppState) : Bool :=
  match w.fed.volumes[name]?.bind (·.expanding), w'.fed.volumes[name]?.bind (·.expanding) with
  | some x, some x' => x'.toBytes ≤ x.toBytes
  | _, _ => true

theorem steady_of_level {name : String} {w w' : AppState} (h : level name w w' = true) : Steady name w w' := by
  intro v v' x x' node array hv hv' hx hx' _ _
  unfold level at h
  rw [hv, hv', Option.bind_some, Option.bind_some, hx, hx'] at h
  exact of_decide_eq_true h

/-- A mirror of two legs with a served volume, its array on the first's node. -/
def mirrored : DistVolume where
  name := "v"
  sizeBytes := 100
  pool := none
  replicas := 2
  rung := "node"
  legs := [{ node := "a", volumeId := some "la", state := .created },
    { node := "b", volumeId := some "lb", state := .created }]
  assembly := .assembled
  head := some "a"
  arrayId := some "array"
  createdAt := 0
  «export» := { node := some "a", volumeId := some "served" }

def upNode (name : String) : Node where
  config := { name := name, engineUrl := name }
  status := { NodeStatus.new .static with healthy := true }

def mirror : AppState where
  fed := {
    nodes := ((∅ : KeyMap Node).insert "a" (upNode "a")).insert "b" (upNode "b")
    volumes := (∅ : KeyMap DistVolume).insert "v" mirrored }

/-- An expand to 200 up to its last step. -/
def firstExpand : List (Move Reply Nat (KeyMap Node)) :=
  .start 200 :: List.replicate 6 (.run 0 {}) ++ [.run 0 { bytes := 200 }, .run 0 {}, .run 0 {}, .run 0 { bytes := 200 }]

/-- The record before the last step. -/
def expanded : DistVolume :=
  { mirrored with expanding := some { toBytes := 200, startedAt := 0, arrayBytesBefore := some 0, arrayGrown := true } }

theorem size_earned_first :
    Earned ((expands "v").final (level "v") ⟨mirror, []⟩ firstExpand).state expanded 200 := by
  set p := (expands "v").final (level "v") ⟨mirror, []⟩ firstExpand with hp
  have hrun : (expands "v").Run (Steady "v") ⟨mirror, []⟩ p :=
    System.run_final (fun _ _ => steady_of_level) (by decide +kernel)
  have hlast : ((expands "v").step p (.run 0 {})).map (fun q =>
      (level "v" p.state q.state, q.state.fed.volumes["v"]?)) = some (true, some { mirrored with sizeBytes := 200 }) := by
    rw [hp]
    decide +kernel
  obtain ⟨q, hq, hlast⟩ := Option.map_eq_some_iff.mp hlast
  obtain ⟨hlevel, hv'⟩ := Prod.mk.inj hlast
  have hv : p.state.fed.volumes["v"]? = some expanded := by
    rw [hp]
    decide +kernel
  refine size_earned (fun v hv => ?_) hrun hq (steady_of_level hlevel) hv hv' (by decide)
  obtain rfl := Option.some.inj ((KeyMap.get_insert_self ..).symm.trans hv)
  rfl

/-- A target raised after the array had grown, up to the last step. -/
def raised : List (Move Reply Nat (KeyMap Node)) :=
  .start 200 :: List.replicate 6 (.run 0 {}) ++
    [.run 0 { bytes := 200 }, .run 0 {}, .run 0 { wire := .refused none "busy" }, .run 0 {}, .run 0 {}] ++
  .start 300 :: List.replicate 5 (.run 1 {}) ++ [.run 1 { bytes := 300 }]

/-- The target is raised from 200 to 300 once the array has grown for 200, and
the size becomes 300 without another grow. -/
theorem not_earned : ¬ ∀ (name : String) (w : AppState) (p p' : Pool Reply AppState Fault)
    (m : Move Reply (expands name).Op (expands name).Env) (v v' : DistVolume),
    (∀ v, w.fed.volumes[name]? = some v → v.expanding = none) → (expands name).Run (fun _ _ => True) ⟨w, []⟩ p →
    (expands name).step p m = some p' → p.state.fed.volumes[name]? = some v → p'.state.fed.volumes[name]? = some v' →
    v'.sizeBytes ≠ v.sizeBytes → Earned p.state v v'.sizeBytes := by
  intro h
  set p := (expands "v").final (fun _ _ => true) ⟨mirror, []⟩ raised with hp
  have hrun : (expands "v").Run (fun _ _ => True) ⟨mirror, []⟩ p :=
    System.run_final (fun _ _ _ => trivial) (by decide +kernel)
  have hlast : ((expands "v").step p (.run 1 {})).map (fun q => q.state.fed.volumes["v"]?) =
      some (some { mirrored with sizeBytes := 300 }) := by
    rw [hp]
    decide +kernel
  obtain ⟨q, hq, hv'⟩ := Option.map_eq_some_iff.mp hlast
  have hv : p.state.fed.volumes["v"]? = some { expanded with
      expanding := some { toBytes := 300, startedAt := 0, arrayBytesBefore := some 0, arrayGrown := true } } := by
    rw [hp]
    decide +kernel
  have he := h "v" mirror p q (.run 1 {}) _ _ (fun v hv => by
    obtain rfl := Option.some.inj ((KeyMap.get_insert_self ..).symm.trans hv)
    rfl) hrun hq hv hv' (by decide)
  obtain ⟨node, array, -, -, g, hg, -, -, hl⟩ := he.array rfl
  have hgrows : (p.state.grows.all fun g => g.sizes "a" "la" < 300) = true := by
    rw [hp]
    decide +kernel
  have hlt := of_decide_eq_true (List.all_eq_true.mp hgrows g hg)
  exact absurd (hl ("a", "la") (List.mem_cons_self ..)) (Nat.not_le_of_lt hlt)

end StormStorage.Expand
