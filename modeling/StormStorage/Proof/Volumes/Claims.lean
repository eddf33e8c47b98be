import Mathlib.Data.List.Nodup
import StormStorage.Server

/-!
# Holding a claim

A claim keeps a volume's record for one operation. It is handed to the
background with what was spawned under it, and taken there (`Holds`); the
steps that claim, let go, hand over and take over leave the claims of others.
-/

namespace StormStorage

/-- Task `t` holds the claim on a volume, and has not handed it over. -/
def Holds (t : Nat) (name : String) (w : AppState) : Prop :=
  w.replacing[name]? = some ⟨t⟩ ∧ ∀ s ∈ w.spawned, s.name ≠ name

variable {w w' : AppState} {me t : Nat} {name n : String} {s : Spawn}

/-- The holder's own claim is not another's. -/
theorem Holds.other (h : Holds me name w) (hu : some me ≠ some t) (hn : Holds t n w) : n ≠ name := by
  rintro rfl
  have := h.1.symm.trans hn.1
  simp only [Option.some.injEq, Claim.mk.injEq] at this
  exact hu (congrArg some this)

theorem Holds.of_eq (hr : w'.replacing = w.replacing) (hs : w'.spawned = w.spawned) (h : Holds t n w) :
    Holds t n w' :=
  ⟨hr ▸ h.1, hs ▸ h.2⟩

theorem Holds.claimed (hfree : w.replacing.contains name = false) (h : Holds t n w) :
    Holds t n { w with replacing := w.replacing.insert name ⟨me⟩ } := by
  have hn : name ≠ n := by
    rintro rfl
    rw [KeyMap.contains_eq, h.1] at hfree
    cases hfree
  exact ⟨(KeyMap.get_insert_ne _ _ hn).trans h.1, h.2⟩

theorem Holds.letGo (hh : Holds me name w) (hu : some me ≠ some t) (hr : w'.replacing = w.replacing.erase name)
    (hs : w'.spawned = w.spawned) (h : Holds t n w) : Holds t n w' := by
  refine ⟨?_, hs ▸ h.2⟩
  rw [hr, KeyMap.get_erase, if_neg fun he => hh.other hu h he.symm]
  exact h.1

theorem Holds.spawn (hh : Holds me s.name w) (hu : some me ≠ some t) (h : Holds t n w) :
    Holds t n { w with spawned := w.spawned ++ [s] } := by
  refine ⟨h.1, fun x hx => ?_⟩
  rcases List.mem_append.mp hx with hx | hx
  · exact h.2 x hx
  · rw [List.mem_singleton.mp hx]
    exact fun he => hh.other hu h he.symm

theorem Holds.spawnedBy (hs : s ∈ w.spawned) (h : Holds t n w) :
    Holds t n { w with spawned := w.spawned.erase s, replacing := w.replacing.insert s.name ⟨me⟩ } :=
  ⟨(KeyMap.get_insert_ne _ _ fun he => h.2 s hs he).trans h.1, fun x hx => h.2 x (List.mem_of_mem_erase hx)⟩

/-- What was handed over is claimed still. -/
theorem contains_claimed (me : Nat) {m : String} (h : w.replacing.contains m = true) :
    (w.replacing.insert name ⟨me⟩).contains m = true := by
  rw [KeyMap.contains_eq, KeyMap.get_insert]
  split
  · rfl
  · rwa [← KeyMap.contains_eq]

theorem contains_letGo (hh : Holds me name w) (hs : s ∈ w.spawned) (h : w.replacing.contains s.name = true) :
    (w.replacing.erase name).contains s.name = true := by
  rwa [KeyMap.contains_eq, KeyMap.get_erase, if_neg fun he => hh.2 s hs he.symm, ← KeyMap.contains_eq]

theorem once_spawn (hh : Holds me s.name w) (hone : (w.spawned.map Spawn.name).Nodup) :
    ((w.spawned ++ [s]).map Spawn.name).Nodup := by
  rw [List.map_append, List.nodup_append]
  refine ⟨hone, List.nodup_singleton _, fun a ha b hb he => ?_⟩
  obtain ⟨x, hx, rfl⟩ := List.mem_map.mp ha
  exact hh.2 x hx (he.trans (List.mem_singleton.mp hb))

/-- What was handed over once is not there again. -/
theorem holds_spawnedBy (hone : (w.spawned.map Spawn.name).Nodup) (hs : s ∈ w.spawned) :
    Holds me s.name { w with spawned := w.spawned.erase s, replacing := w.replacing.insert s.name ⟨me⟩ } := by
  refine ⟨KeyMap.get_insert_self .., fun x hx he => ?_⟩
  have hnd : w.spawned.Nodup := List.Nodup.of_map _ hone
  have hxs : x ≠ s := fun e => hnd.not_mem_erase (e ▸ hx)
  exact hxs (List.inj_on_of_nodup_map hone (List.mem_of_mem_erase hx) hs he)

theorem holds_claimed (hfree : w.replacing.contains name = false)
    (hhanded : ∀ s ∈ w.spawned, w.replacing.contains s.name) :
    Holds me name { w with replacing := w.replacing.insert name ⟨me⟩ } := by
  refine ⟨KeyMap.get_insert_self .., fun s hs he => ?_⟩
  have := hhanded s hs
  rw [he, hfree] at this
  cases this

end StormStorage
