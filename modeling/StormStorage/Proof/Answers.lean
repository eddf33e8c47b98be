import StormStorage.Await.Comes
import StormStorage.Proof.Remote

/-!
# Operations that are answered

What a call comes to where `good` lets only answers be chosen, for operations
that are run alone (`Task.Comes`).

* `comes_callOr`, `comes_inquire`, `comes_act`: calls;
* `comes_enter`, `comes_claim`: a check that passes, a name that is free;
* `Comes.calls`: what a phase of calls leaves alone;
* `comes_deleteVolume`: a deleted volume is gone.
-/

namespace StormStorage

open Await Task

/-- Every call is answered. -/
def Answering (good : Reply → AppState → Prop) : Prop := ∀ i w, good i w → i.wire = .answered

section

variable {good : Reply → AppState → Prop} {α : Type} {Q : α → AppState → Prop} {w : AppState} {node id : String}

theorem comes_callOr {eff : Reply → AppState → AppState} {refused : AppState → AppState}
    {answer : Reply → AppState → Except Fault α} (hg : Answering good)
    (h : ∀ i, good i w → ∃ a, answer i w = .ok a ∧ Q a (eff i w)) : (callOr eff refused answer).Comes good Q w := by
  refine ⟨rfl, fun i hi => ?_⟩
  obtain ⟨a, ha, hq⟩ := h i hi
  simp only [hg i w hi, ha, Wire.effect]
  exact hq

theorem comes_inquire {answer : Reply → Except Fault α} (hg : Answering good)
    (h : ∀ i, good i w → ∃ a, answer i = .ok a ∧ Q a w) : (inquire answer).Comes good Q w :=
  comes_callOr hg h

theorem comes_act (hg : Answering good) : Engine.act.Comes good (fun _ w' => w' = w) w :=
  comes_inquire hg fun _ _ => ⟨(), rfl, rfl⟩

theorem comes_withContext {what : String} {t : Async α} (h : t.Comes good Q w) : (withContext what t).Comes good Q w :=
  h.attempt_bind fun _ _ hq => comes_ret hq

theorem comes_enter {check : FedState → Except Fault α} {what : α → Undertaking} {a : α} (h : check w.fed = .ok a) :
    (enter check what).Comes good (fun x w' => x = a ∧ w'.fed = w.fed) w := by
  refine Comes.bind (comes_atomic (Q := fun x w' => x = .ok a ∧ w'.fed = w.fed) fun _ _ => ?_) fun x w' hx => ?_
  · rw [h]
    exact ⟨rfl, rfl⟩
  · exact comes_ofExcept hx.1 ⟨rfl, hx.2⟩

/-- A free name is claimed at once. -/
theorem comes_claim {me : Nat} {name : String} (hfree : w.replacing.contains name = false) :
    (claim me name).Comes good (fun ok w' => ok = true ∧ w'.fed = w.fed) w := by
  refine comes_atomic fun i _ => ?_
  simp only [hfree, Bool.false_eq_true, if_false]
  exact ⟨trivial, trivial⟩

/-- What the calls of a phase leave alone, beside what it answers. -/
theorem Comes.calls {b : Bool} {t : Async α} (ht : t.Only (Calls b)) (h : t.Comes good Q w) :
    t.Comes good (fun a w' => Q a w' ∧ Calls b w w') w :=
  h.only Calls.refl (fun _ _ _ => Calls.trans) ht

/-- No volume of this id is left on the node's engine. -/
def NoneLeft (node id : String) (w : AppState) : Prop := ∀ e ∈ w.engines, e.node = node → e.id = id → e.deleted = true

theorem noneLeft_destroyOn (w : AppState) (node id : String) : NoneLeft node id (w.destroyOn node id) := by
  intro e he hn hi
  obtain ⟨x, hx, rfl⟩ := List.mem_map.mp he
  by_cases hc : x.node = node ∧ x.id = id
  · simp [hc]
  · simp only [hc, if_false] at hn hi
    exact absurd ⟨hn, hi⟩ hc

theorem NoneLeft.destroyOn {node' id' : String} (h : NoneLeft node id w) : NoneLeft node id (w.destroyOn node' id') := by
  intro e he hn hi
  obtain ⟨x, hx, rfl⟩ := List.mem_map.mp he
  split
  · rfl
  · next hc =>
    simp only [hc, if_false] at hn hi
    exact h x hx hn hi

theorem comes_deleteVolume (hg : Answering good) :
    (Engine.deleteVolume node id).Comes good (fun _ w' => w' = w.destroyOn node id) w :=
  comes_callOr hg fun _ _ => ⟨(), rfl, rfl⟩

end

end StormStorage
