import StormStorage.Proof.Steps.Program

/-!
# Former heads and heads

A promote lists the head that it leaves for the reaper, which closes its drives
once it answers. The head of a volume is none of those listed, so long as no
promote and no assembly makes a head of a node that is listed.

* `Parted.step`: what a step keeps;
* `heads_parted`: every run.
-/

namespace StormStorage

open Await Task Orchestrate

section

variable {w w' : AppState} {name : String}

/-- The head, if there is one, is not listed for the volume. -/
def Unlisted (w : AppState) (name : String) (head : Option String) : Prop := ∀ node, head = some node → ¬ Stale w name node

/-- No head is listed, of a record or of a copy that may be written back. -/
structure Parted (w : AppState) : Prop where
  records : ∀ (name : String) c, w.seen.records name = some c → Unlisted w name c.head
  copies : ∀ (name : String) c, w.seen.copies[name]? = some c → Unlisted w name c.head

/-- No head was made of a listed node. -/
def Heeded (log : List Event) : Prop := ∀ name node, .heading name node true ∉ log

theorem Unlisted.of_stale {head : Option String} (hs : w'.seen.stale ⊆ w.seen.stale) (h : Unlisted w name head) :
    Unlisted w' name head := fun node hn ⟨s, hm, hv⟩ => h node hn ⟨s, hs hm, hv⟩

theorem unlisted_of_foretold {node : String} (h : Foretold w name node) (hl : Heeded w.log) :
    Unlisted w name (some node) := fun _ he hst => hl _ _ (h (Option.some.inj he ▸ hst))

namespace Parted

/-- What a step leaves of records and copies, or puts there. -/
theorem of_seen (h : Parted w) (hs : w'.seen.stale ⊆ w.seen.stale)
    (hr : ∀ (n : String) c, w'.seen.records n = some c →
      Unlisted w n c.head ∨ ∃ c₀, w.seen.records n = some c₀ ∧ c.head = c₀.head)
    (hc : ∀ (n : String) c, w'.seen.copies[n]? = some c → Unlisted w n c.head) : Parted w' where
  records n c hn := by
    rcases hr n c hn with hu | ⟨c₀, hn₀, he⟩
    · exact hu.of_stale hs
    · exact he ▸ (h.records n c₀ hn₀).of_stale hs
  copies n c hn := (hc n c hn).of_stale hs

/-- A record is put in its place. -/
theorem put (h : Parted w) {c : Core} (hs : w'.seen = w.seen.put name (some c)) (hc : Unlisted w name c.head) :
    Parted w' := by
  refine h.of_seen (by rw [hs]; exact List.Subset.refl _) (fun n c' hn => ?_) (by rw [hs]; exact h.copies)
  rw [hs] at hn
  simp only [View.put] at hn
  split at hn
  · rename_i he
    exact .inl (he ▸ Option.some.inj hn ▸ hc)
  · exact .inr ⟨c', hn, rfl⟩

/-- A copy is written back. -/
theorem back (h : Parted w) {c : Core}
    (hs : w'.seen = { w.seen.put name (some c) with copies := w.copies.erase name }) (hc : Unlisted w name c.head) :
    Parted w' := by
  refine h.of_seen (by rw [hs]; exact List.Subset.refl _) (fun _ c' hn => ?_) fun n c' hn => ?_
  · rw [hs] at hn
    simp only [View.put] at hn
    split at hn
    · rename_i he
      exact .inl (he ▸ Option.some.inj hn ▸ hc)
    · exact .inr ⟨c', hn, rfl⟩
  · rw [hs] at hn
    change (w.copies.erase name)[n]? = _ at hn
    rw [KeyMap.get_erase] at hn
    split at hn
    · cases hn
    · exact h.copies n c' hn

/-- Where neither records nor copies change. -/
theorem same (h : Parted w) (hr : w'.seen.records = w.seen.records) (hc : w'.seen.copies = w.seen.copies)
    (hs : w'.seen.stale ⊆ w.seen.stale) : Parted w' :=
  h.of_seen hs (fun _ c hn => .inr ⟨c, hr ▸ hn, rfl⟩) fun n c hn => h.copies n c (hc ▸ hn)

end Parted

theorem head_relabelled {c vol : DistVolume} (h : RelabelledFrom c vol) : vol.head = c.head ∧ vol.name = c.name := by
  obtain ⟨legs, -, rfl⟩ := h
  exact ⟨rfl, rfl⟩

/-- A head is promoted to, and the one that is left is listed. -/
theorem Parted.promoted {target array : String} {c vol : DistVolume} {up : List String} {served : Option String}
    {now : SystemTime} (h : Parted w) (hname : c.name = name)
    (hne : c.head ≠ some target) (hvol : RelabelledFrom c vol) (hu : Unlisted w name (some target))
    (hs : w'.seen = { w.seen.put name (some (Head.promoted target up served vol).core) with
      copies := w.copies.erase name
      stale := w.fed.staleHeads ++ Head.staleHead vol (c.head.getD "") array now }) : Parted w' := by
  -- what is listed beside is the volume's former head
  have hlisted : ∀ n node, Stale w' n node → Stale w n node ∨ n = name ∧ c.head = some node := by
    rintro n node ⟨s, hm, hv, hn⟩
    change s ∈ w'.seen.stale at hm
    rw [hs] at hm
    rcases List.mem_append.mp hm with hm | hm
    · exact .inl ⟨s, hm, hv, hn⟩
    · unfold Head.staleHead at hm
      split at hm
      · cases hm
      · rename_i hold
        obtain rfl := List.mem_singleton.mp hm
        refine .inr ⟨hv.symm.trans ((head_relabelled hvol).2.trans hname), ?_⟩
        cases hh : c.head with
        | none => exact (hold (by rw [hh]; rfl)).elim
        | some old =>
          rw [hh] at hn
          exact congrArg some hn
  refine ⟨fun n c' hn node hnode hst => ?_, fun n c' hn node hnode hst => ?_⟩
  · rw [hs] at hn
    simp only [View.put] at hn
    split at hn
    · rename_i he
      obtain rfl := Option.some.inj hn
      obtain rfl := Option.some.inj hnode
      rcases hlisted n target hst with hst | ⟨-, hh⟩
      · exact hu target rfl (he ▸ hst)
      · exact hne hh
    · rename_i hne'
      rcases hlisted n node hst with hst | ⟨he, -⟩
      · exact h.records n c' hn node hnode hst
      · exact hne' he.symm
  · rw [hs] at hn
    change (w.copies.erase name)[n]? = _ at hn
    rw [KeyMap.get_erase] at hn
    split at hn
    · cases hn
    · rename_i hne'
      rcases hlisted n node hst with hst | ⟨he, -⟩
      · exact h.copies n c' hn node hnode hst
      · exact hne' he.symm

theorem core_modify_head (fed : FedState) (v : DistVolume) : (afterLoss fed v).core.head = v.core.head := by
  unfold afterLoss
  split <;> rfl

/-- What a step of an operation keeps. -/
theorem Parted.step (h : Parted w) (hl : Heeded w.log) (hstep : RecordStep w w') : Parted w' := by
  have hrec : ∀ {n : String} {v : DistVolume}, w.fed.volumes[n]? = some v → Unlisted w n v.head :=
    fun hv => h.records _ _ (records_eq hv)
  cases hstep with
  | unseen hs => exact h.same (by rw [hs]) (by rw [hs]) (by rw [hs]; exact List.Subset.refl _)
  | lost hs =>
    refine h.of_seen (by rw [hs]; exact List.Subset.refl _) (fun n c hn => ?_) (by rw [hs]; exact h.copies)
    rw [hs] at hn
    obtain ⟨v, hv, rfl⟩ := Option.map_eq_some_iff.mp hn
    exact .inr ⟨_, records_eq hv, core_modify_head _ v⟩
  | fenced hv hs =>
    refine h.of_seen (by rw [hs]; exact List.Subset.refl _) (fun n c hn => ?_) (by rw [hs]; exact h.copies)
    rw [hs] at hn
    simp only [View.put] at hn
    split at hn
    · rename_i he
      exact .inl (he ▸ Option.some.inj hn ▸ hrec hv)
    · exact .inr ⟨c, hn, rfl⟩
  | replacing hv _ _ hs => exact h.put hs (hrec hv)
  | gaveUp hv hs => exact h.put hs (hrec hv)
  | swapped hv _ hs =>
    have hu := hrec hv
    exact h.put hs hu
  | rejoined hv hread _ _ hs => exact h.put hs ((congrArg (Unlisted w _) (applyHeadReading_keeps hread).1).mpr (hrec hv))
  | copied hv hs =>
    refine h.of_seen (by rw [hs]; exact List.Subset.refl _) (fun n c hn => .inr ⟨c, by rwa [hs] at hn, rfl⟩)
      fun n c hn => ?_
    rw [hs] at hn
    change (w.copies.insert _ _)[n]? = _ at hn
    rw [KeyMap.get_insert] at hn
    split at hn
    · rename_i he
      exact he ▸ Option.some.inj hn ▸ hrec hv
    · exact h.copies n c hn
  | letGo hs =>
    refine h.of_seen (by rw [hs]; exact List.Subset.refl _) (fun n c hn => .inr ⟨c, by rwa [hs] at hn, rfl⟩)
      fun n c hn => ?_
    rw [hs] at hn
    change (w.copies.erase _)[n]? = _ at hn
    rw [KeyMap.get_erase] at hn
    split at hn
    · cases hn
    · exact h.copies n c hn
  | assembled hc _ _ hv hf hs =>
    refine h.back hs ?_
    obtain ⟨legs, -, rfl | ⟨array, rfl⟩⟩ := hv
    · exact h.copies _ _ hc
    · exact unlisted_of_foretold hf hl
  | stayed hc _ _ _ hs => exact h.back hs (h.copies _ _ hc)
  | promoted _ hname _ hne _ hvol hf _ hs => exact h.promoted hname hne hvol (unlisted_of_foretold hf hl) hs
  | reassembled hc _ _ hvol _ _ hs =>
    exact h.back hs ((congrArg (Unlisted w _) (head_relabelled hvol).1).mpr (h.copies _ _ hc))
  | made hfresh _ hs => exact h.put hs fun node hn => by cases hfresh.headless.symm.trans hn
  | dropped _ hs =>
    refine h.of_seen (by rw [hs]; exact List.Subset.refl _) (fun n c hn => ?_) (by rw [hs]; exact h.copies)
    rw [hs] at hn
    simp only [View.put] at hn
    split at hn
    · cases hn
    · exact .inr ⟨c, hn, rfl⟩
  | undertook hs => exact h.same (by rw [hs]) (by rw [hs]) (by rw [hs]; exact List.Subset.refl _)
  | ended hs => exact h.same (by rw [hs]) (by rw [hs]) (by rw [hs]; exact List.Subset.refl _)
  | policy _ _ hs => exact h.same (by rw [hs]; rfl) (by rw [hs]; rfl) (by rw [hs]; exact List.Subset.refl _)
  | picked _ hs => exact h.same (by rw [hs]; rfl) (by rw [hs]; rfl) (by rw [hs]; exact List.Subset.refl _)
  | stopped _ _ hs => exact h.same (by rw [hs]; rfl) (by rw [hs]; rfl) (by rw [hs]; exact List.Subset.refl _)
  | purged hs => exact h.same (by rw [hs]; rfl) (by rw [hs]; rfl) (by rw [hs]; exact List.Subset.refl _)
  | reaped hs => exact h.same (by rw [hs]) (by rw [hs]) (by rw [hs]; exact fun _ hx => (List.mem_filter.mp hx).1)

end

/-- In every run that makes no head of a listed node, no volume's head is listed
as a former head of it. -/
theorem heads_parted {cfg : Config} {w : AppState} {p : Pool Reply AppState Fault}
    (h : (operations cfg fun _ => True).Run (fun _ w' => Heeded w'.log) ⟨w, []⟩ p) (hidle : Resting w)
    (hw : ∀ (name : String) v, w.fed.volumes[name]? = some v → ∀ s ∈ w.fed.staleHeads, s.ofVolume = name →
      v.head ≠ some s.node) {name : String} {v : DistVolume} {s : StaleHead}
    (hv : p.state.fed.volumes[name]? = some v) (hs : s ∈ p.state.fed.staleHeads) (hn : s.ofVolume = name) :
    v.head ≠ some s.node := by
  have h₀ : Parted w := by
    refine ⟨fun n c hc node hnode ⟨s, hs, hv, hn⟩ => ?_, fun n c hc => ?_⟩
    · obtain ⟨v, hv', rfl⟩ := Option.map_eq_some_iff.mp hc
      exact hw n v hv' s hs hv (hn ▸ hnode)
    · change w.copies[n]? = _ at hc
      rw [hidle.copies] at hc
      simp at hc
  have hp : Parted p.state := by
    refine keeps_run (J := Parted) hidle.stepInv rfl h₀ (fun w w' u _ hok hg hJ => ?_) h
    exact hJ.step (fun name node hm => hok name node (hg.passes.log hm)) hg.passes.step
  exact fun he => hp.records name _ (records_eq hv) s.node he ⟨s, hs, hn, rfl⟩

/-! ## A small run -/

theorem resting_rackStart (nodes : List (String × String)) : Resting (rackStart nodes) where
  named n v hv := by
    simp only [rackStart, KeyMap.get_insert] at hv
    split at hv
    · rename_i he
      rw [← Option.some.inj hv]
      exact he
    · simp at hv
  spawned := rfl
  copies := rfl
  undertakings := rfl

/-- An engine that answers every call, with the volume's array where arrays are
asked for. -/
def arrayReply : Reply := { plainReply with arrays := [{ id := some "arr" }] }

/-- The head is lost with a, and b becomes the head. -/
def promoteB : List (VolumeMove fun _ => True) :=
  .env (nodesOf [("a", false), ("b", true), ("c", true)]) ::
    .start ⟨.fence "v" 1, trivial⟩ :: List.replicate 3 (.run 0 arrayReply) ++
    (.start ⟨.promote "v" "b" 2, trivial⟩ :: List.replicate 10 (.run 1 arrayReply))

/-- The leg on a is replaced on c and moved to a again; then b is lost, and a
becomes the head. -/
def promoteBack : List (VolumeMove fun _ => True) :=
  promoteB ++ (.start ⟨.move "v" "a" (some "c"), trivial⟩ :: List.replicate 8 (.run 2 arrayReply)) ++
    (.start ⟨.finish "v", trivial⟩ :: List.replicate 8 (.run 3 arrayReply)) ++
    (.env (nodesOf [("a", true), ("b", true), ("c", true)]) ::
      .start ⟨.move "v" "c" (some "a"), trivial⟩ :: List.replicate 8 (.run 4 arrayReply)) ++
    (.start ⟨.finish "v", trivial⟩ :: List.replicate 12 (.run 5 arrayReply)) ++
    (.env (nodesOf [("a", true), ("b", false), ("c", true)]) ::
      .start ⟨.fence "v" 2, trivial⟩ :: List.replicate 3 (.run 6 arrayReply)) ++
    (.start ⟨.promote "v" "a" 3, trivial⟩ :: List.replicate 10 (.run 7 arrayReply))

def heeded (log : List Event) : Bool :=
  log.all fun
    | .heading _ _ true => false
    | _ => true

theorem heeded_iff {log : List Event} (h : heeded log = true) : Heeded log :=
  fun _ _ hm => nomatch List.all_eq_true.mp h _ hm

/-- The volume, with the first entry for the reaper. -/
def headAndListed (w : AppState) : Option (DistVolume × StaleHead) := do
  some (← w.fed.volumes["v"]?, ← w.fed.staleHeads.head?)

theorem headAndListed_some {w : AppState} {v : DistVolume} {s : StaleHead} (h : headAndListed w = some (v, s)) :
    w.fed.volumes["v"]? = some v ∧ s ∈ w.fed.staleHeads := by
  obtain ⟨v', hv, h⟩ := Option.bind_eq_some_iff.mp h
  obtain ⟨s', hs, h⟩ := Option.bind_eq_some_iff.mp h
  obtain ⟨rfl, rfl⟩ := Prod.mk.inj (Option.some.inj h)
  exact ⟨hv, List.mem_of_head? hs⟩

theorem heads_parted_small : ∃ p v s, (operations plainConfig fun _ => True).Run (fun _ w' => Heeded w'.log)
    ⟨rackStart [], []⟩ p ∧ p.state.fed.volumes["v"]? = some v ∧ s ∈ p.state.fed.staleHeads ∧ s.ofVolume = "v" ∧
    v.head ≠ some s.node := by
  have hr : (operations plainConfig fun _ => True).Run (fun _ w' => Heeded w'.log) ⟨rackStart [], []⟩
      ((operations plainConfig fun _ => True).final (fun _ w => heeded w.log) ⟨rackStart [], []⟩ promoteB) :=
    System.run_final (fun _ _ => heeded_iff) (by decide +kernel)
  obtain ⟨⟨v, s⟩, hvs, hd⟩ := Option.any_eq_true _ _ |>.mp (show (headAndListed ((operations plainConfig fun _ => True).final
    (fun _ w => heeded w.log) ⟨rackStart [], []⟩ promoteB).state).any (fun (_, s) => s.ofVolume = "v") = true by
      decide +kernel)
  obtain ⟨hv, hs⟩ := headAndListed_some hvs
  refine ⟨_, v, s, hr, hv, hs, of_decide_eq_true hd,
    heads_parted hr (resting_rackStart []) (fun _ _ _ _ hs => nomatch hs) hv hs (of_decide_eq_true hd)⟩

/-- The former head a is promoted to again before the reaper came to it: it is
listed still. -/
theorem not_heads_parted : ¬ ∀ (w : AppState) (p : Pool Reply AppState Fault),
    (operations plainConfig fun _ => True).Run (fun _ _ => True) ⟨w, []⟩ p → Resting w →
    (∀ (name : String) v, w.fed.volumes[name]? = some v → ∀ s ∈ w.fed.staleHeads, s.ofVolume = name →
      v.head ≠ some s.node) →
    ∀ (name : String) v, p.state.fed.volumes[name]? = some v → ∀ s ∈ p.state.fed.staleHeads, s.ofVolume = name →
      v.head ≠ some s.node := by
  intro h
  have hr : (operations plainConfig fun _ => True).Run (fun _ _ => True) ⟨rackStart [], []⟩
      ((operations plainConfig fun _ => True).final (fun _ _ => true) ⟨rackStart [], []⟩ promoteBack) :=
    System.run_final (fun _ _ _ => trivial) (by decide +kernel)
  obtain ⟨⟨v, s⟩, hvs, hd⟩ := Option.any_eq_true _ _ |>.mp (show (headAndListed ((operations plainConfig fun _ => True).final
    (fun _ _ => true) ⟨rackStart [], []⟩ promoteBack).state).any
      (fun (v, s) => v.head = some s.node ∧ s.ofVolume = "v") = true by decide +kernel)
  obtain ⟨hhead, hof⟩ := of_decide_eq_true hd
  obtain ⟨hv, hs⟩ := headAndListed_some hvs
  exact h _ _ hr (resting_rackStart []) (fun _ _ _ _ hs => nomatch hs) "v" v hv s hs hof hhead

end StormStorage
