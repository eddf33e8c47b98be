import StormStorage.Proof.Requests.Names

/-!
# Parents stay

A clone or a snapshot lives on the data of its parent, a volume with legs of
its own, and a volume that others live on is not deleted. A create checks its
parent before its calls and records after them, and a delete checks what
depends on its volume before the first of its calls: where no create that is
under way needs a volume that is being deleted, every parent is there
(`parents_stay`).
-/

namespace StormStorage

open Await Task Orchestrate

/-- A volume with legs of its own, no clone. -/
def HasLegs (fed : FedState) (n : String) : Prop :=
  ∃ k, fed.kinAt n = some k ∧ k.cloneOf = none ∧ k.legless = false

/-- No create that has not recorded yet needs a volume that is being deleted. -/
def Spared (w : AppState) : Prop :=
  ∀ a ∈ w.undertakings, ∀ b ∈ w.undertakings, a.recorded = false → ∀ n ∈ a.needs, n ∉ b.deletes

/-- Nothing lives on this volume. -/
structure Childless (fed : FedState) (n : String) : Prop where
  clones : ∀ m k c, fed.kinAt m = some k → k.cloneOf = some c → c.parent ≠ n
  snapshots : ∀ (m : String) s, fed.snapshots[m]? = some s → s.parent ≠ n

structure ParentsInv (w : AppState) : Prop where
  named : Named w.fed
  legged : ∀ n k, w.fed.kinAt n = some k → k.cloneOf = none → k.legless = false
  clones : ∀ n k c, w.fed.kinAt n = some k → k.cloneOf = some c → HasLegs w.fed c.parent
  snapshots : ∀ (n : String) s, w.fed.snapshots[n]? = some s → HasLegs w.fed s.parent
  needed : ∀ u ∈ w.undertakings, u.recorded = false → ∀ n ∈ u.needs, HasLegs w.fed n
  /-- What is not recorded yet is no one's parent. -/
  coming : ∀ u ∈ w.undertakings, u.recorded = false → ∀ n ∈ u.creates, ¬ HasLegs w.fed n
  deleted : ∀ u ∈ w.undertakings, ∀ n ∈ u.deletes, Childless w.fed n
  spared : Spared w

theorem childless_of_dependents {fed : FedState} {n : String} (h : fed.dependentsOf n = []) : Childless fed n := by
  obtain ⟨hclones, hsnaps⟩ := List.append_eq_nil_iff.mp h
  refine ⟨fun m k c hk hc he => ?_, fun m s hs he => ?_⟩
  · obtain ⟨v, hv, rfl⟩ := Option.map_eq_some_iff.mp hk
    have hmem : v ∈ (fed.volumes.toList.map Prod.snd).filter fun v => v.cloneOf.any (·.parent = n) := by
      refine List.mem_filter.mpr ⟨List.mem_map.mpr ⟨(m, v), KeyMap.mem_toList.mpr hv, rfl⟩, ?_⟩
      rw [show v.cloneOf = some c from hc]
      simpa using he
    rw [List.map_eq_nil_iff.mp hclones] at hmem
    cases hmem
  · have hmem : s ∈ (fed.snapshots.toList.map Prod.snd).filter fun s => s.parent = n ∨ s.sourceVolumeId = n :=
      List.mem_filter.mpr ⟨List.mem_map.mpr ⟨(m, s), KeyMap.mem_toList.mpr hs, rfl⟩, by simp [he]⟩
    rw [List.map_eq_nil_iff.mp hsnaps] at hmem
    cases hmem

section

variable {fed fed' : FedState} {n : String}

theorem HasLegs.aside (h : HasLegs fed n) (hk : fed'.kinAt n = fed.kinAt n) : HasLegs fed' n := by
  obtain ⟨k, hn, hk'⟩ := h
  exact ⟨k, hk.trans hn, hk'⟩

end

/-- What is let in of undertakings. -/
theorem ParentsInv.enter {w : AppState} {u : Undertaking} (hi : ParentsInv w) (hadm : Admitted w.fed u)
    (hok : Spared { w with undertakings := w.undertakings ++ [u] }) :
    ParentsInv { w with undertakings := w.undertakings ++ [u] } := by
  refine ⟨hi.named, hi.legged, hi.clones, hi.snapshots, fun x hx hopen n hn => ?_, fun x hx hopen n hn => ?_,
    fun x hx n hn => ?_, hok⟩
  · rcases List.mem_append.mp hx with hx | hx
    · exact hi.needed x hx hopen n hn
    · obtain rfl := List.mem_singleton.mp hx
      obtain ⟨v, hv, hc⟩ := hadm.needed n hn
      have hk : w.fed.kinAt n = some v.kin := by rw [FedState.kinAt, hv]; rfl
      exact ⟨v.kin, hk, hc, hi.legged n _ hk hc⟩
  · rcases List.mem_append.mp hx with hx | hx
    · exact hi.coming x hx hopen n hn
    · obtain rfl := List.mem_singleton.mp hx
      rintro ⟨k, hk, -⟩
      have hfree := hadm.free n hn
      rw [FedState.taken, FedState.contains_eq, hk] at hfree
      cases hfree
  · rcases List.mem_append.mp hx with hx | hx
    · exact hi.deleted x hx n hn
    · obtain rfl := List.mem_singleton.mp hx
      exact childless_of_dependents (hadm.undepended n hn)

/-- A create records what lives on volumes that it needs, none of which its
names stand for. -/
theorem ParentsInv.recorded {w : AppState} {t : Nat} {u : Undertaking} {names groups : List String}
    {f : FedState → FedState} (hi : ParentsInv w) (hu : Undertakes t u w) (hopen : u.recorded = false)
    (hnamed : Named (f w.fed))
    (hkin : ∀ n k, (f w.fed).kinAt n = some k → w.fed.kinAt n = some k ∨ ∃ c, k.cloneOf = some c ∧ c.parent ∈ u.needs)
    (hsnaps : ∀ (n : String) s, (f w.fed).snapshots[n]? = some s → w.fed.snapshots[n]? = some s ∨ s.parent ∈ u.needs)
    (hlegs : ∀ n, HasLegs w.fed n → HasLegs (f w.fed) n) (hok : Spared ((w.recorded t names groups).revise f)) :
    ParentsInv ((w.recorded t names groups).revise f) := by
  have hneeds : ∀ n ∈ u.needs, HasLegs (f w.fed) n := fun n hn => hlegs n (hi.needed u hu.1 hopen n hn)
  refine ⟨hnamed, fun n k hk hc => ?_, fun n k c hk hc => ?_, fun n s hs => ?_, fun x hx hxo n hn => ?_,
    fun x hx hxo n hn hl => ?_, fun x hx n hn => ?_, hok⟩
  · rcases hkin n k hk with hk | ⟨c, hc', -⟩
    · exact hi.legged n k hk hc
    · cases hc.symm.trans hc'
  · rcases hkin n k hk with hk | ⟨c', hc', hneed⟩
    · exact hlegs _ (hi.clones n k c hk hc)
    · obtain rfl := Option.some.inj (hc.symm.trans hc')
      exact hneeds _ hneed
  · rcases hsnaps n s hs with hs | hneed
    · exact hlegs _ (hi.snapshots n s hs)
    · exact hneeds _ hneed
  · obtain ⟨i, hxm, -, hmark⟩ := mem_recorded hx
    obtain ⟨rfl, -⟩ := hmark hxo
    exact hlegs n (hi.needed i hxm hxo n hn)
  · obtain ⟨i, hxm, -, hmark⟩ := mem_recorded hx
    obtain ⟨rfl, -⟩ := hmark hxo
    obtain ⟨k, hk, hc, hl⟩ := hl
    rcases hkin n k hk with hk | ⟨c, hc', -⟩
    · exact hi.coming i hxm hxo n hn ⟨k, hk, hc, hl⟩
    · cases hc.symm.trans hc'
  · obtain ⟨i, hxm, hdel, -⟩ := mem_recorded hx
    have hn : n ∈ i.deletes := hdel ▸ hn
    have hchildless := hi.deleted i hxm n hn
    have hspared : ∀ m ∈ u.needs, m ≠ n := fun m hm he => hi.spared u hu.1 i hxm hopen m hm (he ▸ hn)
    refine ⟨fun m k c hk hc => ?_, fun m s hs => ?_⟩
    · rcases hkin m k hk with hk | ⟨c', hc', hneed⟩
      · exact hchildless.clones m k c hk hc
      · obtain rfl := Option.some.inj (hc.symm.trans hc')
        exact hspared _ hneed
    · rcases hsnaps m s hs with hs | hneed
      · exact hchildless.snapshots m s hs
      · exact hspared _ hneed

theorem bookkeeping_parents : Bookkeeping (fun v => v.cloneOf.isSome) ParentsInv Spared fun _ _ => True where
  named w hi := hi.named
  aside w w' hi h hok := by
    refine ⟨⟨?_, ?_, ?_, ?_, ?_, ?_, ?_, hok⟩, trivial⟩
    · intro n v hv
      have := h.kin n
      rw [FedState.kinAt, hv, Option.map_some] at this
      obtain ⟨v₀, hv₀, hk⟩ := Option.map_eq_some_iff.mp this.symm
      exact (congrArg Kin.name hk).symm.trans (hi.named n v₀ hv₀)
    · simp only [h.kin]
      exact hi.legged
    · simp only [h.kin]
      exact fun n k c hk hc => (hi.clones n k c hk hc).aside (h.kin _)
    · rw [h.snapshots]
      exact fun n s hs => (hi.snapshots n s hs).aside (h.kin _)
    · rw [h.undertakings]
      exact fun u hu hopen n hn => (hi.needed u hu hopen n hn).aside (h.kin _)
    · rw [h.undertakings]
      exact fun u hu hopen n hn hl => hi.coming u hu hopen n hn (hl.aside (h.kin _).symm)
    · rw [h.undertakings]
      intro u hu n hn
      have hchildless := hi.deleted u hu n hn
      exact ⟨fun m k c hk => hchildless.clones m k c (h.kin m ▸ hk), fun m s hs => hchildless.snapshots m s
        (h.snapshots ▸ hs)⟩
  enter w u w' hi hadm hw hok := by
    subst hw
    exact ⟨hi.enter hadm hok, trivial⟩
  ended w t w' hi hw hok := by
    subst hw
    refine ⟨⟨hi.named, hi.legged, hi.clones, hi.snapshots, ?_, ?_, ?_, hok⟩, trivial⟩
    · exact fun u hu => hi.needed u (List.mem_filter.mp hu).1
    · exact fun u hu => hi.coming u (List.mem_filter.mp hu).1
    · exact fun u hu => hi.deleted u (List.mem_filter.mp hu).1
  volume w t u v w' hi hu hopen hname hclone hparent hw hok := by
    subst hw
    obtain ⟨c, hc⟩ := Option.isSome_iff_exists.mp hclone
    have hkin : ∀ n, ({ w.fed with volumes := w.fed.volumes.insert v.name v } : FedState).kinAt n =
        if v.name = n then some v.kin else w.fed.kinAt n := fun n => FedState.kinAt_insert w.fed _ n rfl
    refine ⟨hi.recorded hu hopen ?_ (fun n k hk => ?_) (fun n s hs => .inl hs) (fun n hl => ?_) hok, trivial⟩
    · intro n x hx
      rw [show (_ : FedState).volumes = w.fed.volumes.insert v.name v from rfl, KeyMap.get_insert] at hx
      split at hx
      · exact Option.some.inj hx ▸ ‹_›
      · exact hi.named n x hx
    · rw [hkin] at hk
      split at hk
      · obtain rfl := Option.some.inj hk
        exact .inr ⟨c, hc, hparent c hc⟩
      · exact .inl hk
    · refine hl.aside ?_
      rw [hkin, if_neg]
      rintro rfl
      exact hi.coming u hu.1 hopen _ hname hl
  snapshots w t u members groups f w' hi hu hopen hmembers _ hf hw hok := by
    subst hw
    have hkin : ∀ n, (f w.fed).kinAt n = w.fed.kinAt n := fun n => by rw [FedState.kinAt, hf.volumes]; rfl
    refine ⟨hi.recorded hu hopen ?_ (fun n k hk => .inl (hkin n ▸ hk)) (fun n s hs => ?_)
      (fun n hl => hl.aside (hkin n)) hok, trivial⟩
    · exact fun n v hv => hi.named n v (hf.volumes ▸ hv)
    · rcases hf.records n s hs with hs | hm
      · exact .inl hs
      · exact .inr (hmembers s hm).2

/-! ## Deletes -/

abbrev ParentsSafe (t : Nat) {α : Type} (task : Async α) (Q : Except Fault α → AppState → Prop) (w : AppState) :
    Prop := RequestSafe ParentsInv Spared (fun _ _ => True) t task Q w

section

variable {t : Nat} {w : AppState} {name : String}

theorem deletable_ok {fed : FedState} {vol : DistVolume} (h : Api.deletable name fed = .ok vol) :
    fed.dependentsOf name = [] := by
  obtain ⟨v, -, h⟩ := check_bind.mp h
  obtain ⟨_, hdeps, -⟩ := check_bind.mp h
  simpa [require_ok] using hdeps

/-- A delete of what others live on is refused. -/
theorem deletable_refused {fed : FedState} {v : DistVolume} (hv : fed.volumes[name]? = some v)
    (hdeps : fed.dependentsOf name ≠ []) : ∃ why, Api.deletable name fed = .error (.conflict why) := by
  let on := ", ".intercalate (fed.dependentsOf name)
  refine ⟨s!"{name}: {on} still on its data — delete them first", ?_⟩
  show (volumeIn fed name).bind _ = _
  rw [volumeIn_eq.mpr hv]
  show (require (decide (fed.dependentsOf name = [])) _).bind _ = _
  rw [decide_eq_false hdeps]
  rfl

/-- The record of a volume that is being deleted goes. -/
theorem ParentsInv.dropped {u : Undertaking} {orphans : List Orphan} (hi : ParentsInv w) (hu : u ∈ w.undertakings)
    (hname : name ∈ u.deletes)
    (hok : Spared (w.revise fun fed => { fed with volumes := fed.volumes.erase name, orphans := orphans })) :
    ParentsInv (w.revise fun fed => { fed with volumes := fed.volumes.erase name, orphans := orphans }) := by
  have hget : ∀ n : String, (w.fed.volumes.erase name)[n]? = if name = n then none else w.fed.volumes[n]? :=
    fun n => KeyMap.get_erase ..
  have hkin : ∀ n k, ({ w.fed with volumes := w.fed.volumes.erase name } : FedState).kinAt n = some k →
      w.fed.kinAt n = some k := by
    intro n k hk
    rw [FedState.kinAt, hget] at hk
    split at hk
    · cases hk
    · exact hk
  have hlegs : ∀ n, n ≠ name → HasLegs w.fed n →
      HasLegs ({ w.fed with volumes := w.fed.volumes.erase name } : FedState) n := by
    intro n hn hl
    refine hl.aside ?_
    rw [FedState.kinAt, hget, if_neg (Ne.symm hn)]
    rfl
  have hchildless := hi.deleted u hu name hname
  refine ⟨fun n v hv => ?_, fun n k hk => hi.legged n k (hkin n k hk), fun n k c hk hc => ?_, fun n s hs => ?_,
    fun x hx hopen n hn => ?_, fun x hx hopen n hn hl => ?_, fun x hx n hn => ?_, hok⟩
  · change (w.fed.volumes.erase name)[n]? = some v at hv
    rw [hget] at hv
    split at hv
    · cases hv
    · exact hi.named n v hv
  · exact hlegs _ (hchildless.clones n k c (hkin n k hk) hc) (hi.clones n k c (hkin n k hk) hc)
  · exact hlegs _ (hchildless.snapshots n s hs) (hi.snapshots n s hs)
  · exact hlegs n (fun he => hi.spared x hx u hu hopen n hn (he ▸ hname)) (hi.needed x hx hopen n hn)
  · obtain ⟨k, hk, hl⟩ := hl
    exact hi.coming x hx hopen n hn ⟨k, hkin n k hk, hl⟩
  · have hx := hi.deleted x hx n hn
    exact ⟨fun m k c hk => hx.clones m k c (hkin m k hk), hx.snapshots⟩

theorem safe_deleteVolume (hi : ParentsInv w) :
    ParentsSafe t (Api.deleteVolume t name) (fun _ _ => True) w := by
  have hb := bookkeeping_parents
  have hfail : ∀ (e : Fault) w, ParentsInv w → ParentsSafe t (.fail e : Async Unit) (fun _ _ => True) w :=
    fun e w hi => Safe.fail stable_any (fun _ _ _ => trivial) hi trivial
  refine (safe_enter hb (Q := fun _ => True) (fun fed vol _ h => ?_) hi).bind hi (fun vol w hi h => ?_)
    fun _ _ _ => trivial
  · exact ⟨{ admitted_idle (t := t) fed with undepended := fun n hn => List.mem_singleton.mp hn ▸ deletable_ok h }, rfl, trivial⟩
  · obtain ⟨hu, -⟩ := h vol rfl
    refine (safe_calls hb (aside_backed Api.backed_onVolumeDelete) (answers_true _) hi hu).bind hi
      (fun _ w hi h => ?_) fun _ _ _ => trivial
    refine (safe_calls hb aside_revoke (answers_true _) hi h.1).attempt_bind hi fun x w hi h => ?_
    cases x with
    | error e => exact hfail _ w hi
    | ok _ =>
      refine (safe_calls hb (aside_remote remote_teardown) (answers_true _) hi h.1).bind hi
        (fun _ w hi h => ?_) fun _ _ _ => trivial
      refine (safe_calls hb (aside_remote (Api.remote_deleteLegs _)) (answers_true _) hi h.1).bind hi
        (fun gone w hi h => ?_) fun _ _ _ => trivial
      split
      · refine Safe.step stable_undertakes (fun s i hi hu _ hok => ?_) hi h.1
        have hi' := hi.dropped hu.1 (List.mem_singleton_self name) hok
        exact ⟨hi', ⟨trivial, fun _ _ => rfl⟩, Safe.ret stable_any (fun _ _ _ => trivial) hi' trivial⟩
      · exact hfail _ w hi

end

/-! ## Every run -/

/-- Creates of clones and snapshots, and deletes. -/
def Branches : VolumeOp → Prop
  | .create req => req.source.isSome
  | .snapshot .. | .group .. | .delete _ => True
  | _ => False

/-- There is a volume of this name with legs of its own. -/
def OwnLegs (fed : FedState) (n : String) : Prop := ∃ v, fed.volumes[n]? = some v ∧ v.cloneOf = none ∧ v.legs ≠ []

/-- The parents of clones and of snapshots are there. -/
structure Parented (fed : FedState) : Prop where
  clones : ∀ (n : String) v c, fed.volumes[n]? = some v → v.cloneOf = some c → OwnLegs fed c.parent
  snapshots : ∀ (n : String) s, fed.snapshots[n]? = some s → OwnLegs fed s.parent

theorem ownLegs_iff {fed : FedState} {n : String} : OwnLegs fed n ↔ HasLegs fed n := by
  refine ⟨fun ⟨v, hv, hc, hl⟩ => ⟨v.kin, by rw [FedState.kinAt, hv]; rfl, hc, List.isEmpty_eq_false_iff.mpr hl⟩, ?_⟩
  rintro ⟨k, hk, hc, hl⟩
  obtain ⟨v, hv, rfl⟩ := Option.map_eq_some_iff.mp hk
  exact ⟨v, hv, hc, List.isEmpty_eq_false_iff.mp hl⟩

/-- In every run in which no create that is under way needs a volume that is
being deleted, the parents of clones and snapshots stay, and a volume that
others live on is not deleted. -/
theorem parents_stay {cfg : Config} {w : AppState} {p : Pool Reply AppState Fault}
    (h : (operations cfg Branches).Run (fun _ w' => Spared w') ⟨w, []⟩ p) (hnamed : Named w.fed)
    (hlegs : ∀ (n : String) v, w.fed.volumes[n]? = some v → v.cloneOf = none → v.legs ≠ []) (hw : Parented w.fed)
    (hidle : w.undertakings = []) :
    Parented p.state.fed ∧ ∀ (n : String) v, p.state.fed.volumes[n]? = some v → p.state.fed.dependentsOf n ≠ [] →
      ∃ why, Api.deletable n p.state.fed = .error (.conflict why) := by
  have hkept : System.Run.Kept (requests ParentsInv Spared fun _ _ => True) p := by
    refine System.Run.safe (d := requests ParentsInv Spared fun _ _ => True) ?_ ?_ ?_ rfl h
    · rintro t ⟨op, hop⟩ w hi
      cases op with
      | create req =>
        refine safe_tracked bookkeeping_parents ?_ hi
        refine (safe_aside bookkeeping_parents (aside_remote (only_ofExcept _)) hi).bind hi (fun hosts w hi _ => ?_)
          fun _ _ _ => trivial
        obtain ⟨source, hsource⟩ := Option.isSome_iff_exists.mp hop
        rw [hsource]
        refine (safe_aside bookkeeping_parents (aside_remote (only_ofExcept _)) hi).bind hi (fun _ w hi _ => ?_)
          fun _ _ _ => trivial
        exact safe_createClone bookkeeping_parents (fun _ h => h) hi
      | snapshot name volumeId => exact safe_tracked bookkeeping_parents (safe_createSnapshot bookkeeping_parents hi) hi
      | group name volumeIds => exact safe_tracked bookkeeping_parents (safe_createGroup bookkeeping_parents hi) hi
      | delete name => exact safe_tracked bookkeeping_parents (safe_deleteVolume hi) hi
      | _ => exact hop.elim
    · exact fun nodes w hi hok => bookkeeping_parents.step_aside none hi ⟨rfl, rfl, rfl, rfl, fun _ => rfl⟩ hok
    · refine ⟨hnamed, fun n k hk hc => ?_, fun n k c hk hc => ?_, fun n s hs => ownLegs_iff.mp (hw.snapshots n s hs),
        ?_, ?_, ?_, ?_⟩
      · obtain ⟨v, hv, rfl⟩ := Option.map_eq_some_iff.mp hk
        exact List.isEmpty_eq_false_iff.mpr (hlegs n v hv hc)
      · obtain ⟨v, hv, rfl⟩ := Option.map_eq_some_iff.mp hk
        exact ownLegs_iff.mp (hw.clones n v c hv hc)
      all_goals simp [Spared, hidle]
  have hi := hkept.1
  exact ⟨⟨fun n v c hv hc => ownLegs_iff.mpr (hi.clones n v.kin c (by rw [FedState.kinAt, hv]; rfl) hc),
    fun n s hs => ownLegs_iff.mpr (hi.snapshots n s hs)⟩, fun n v hv hdeps => deletable_refused hv hdeps⟩

/-! ### A small run -/

/-- Clone c of u is made, and u is deleted once the clone has taken this many
steps. -/
def cloneAndDelete (n : Nat) : List (VolumeMove Branches) :=
  .start ⟨.create { name := "c", sizeBytes := 10, source := some (.volume "u") }, rfl⟩ ::
    List.replicate n (.run 0 plainReply) ++ [.start ⟨.delete "u", trivial⟩]

instance (w : AppState) : Decidable (Spared w) := inferInstanceAs (Decidable (∀ a ∈ w.undertakings, _))

theorem parented_ownStart : Parented ownStart.fed := by
  refine ⟨fun n v c hv hc => ?_, fun n s hs => ?_⟩
  · rw [(ownStart_volume hv).2] at hc
    cases hc
  · simp [ownStart] at hs

theorem legs_ownStart (n : String) (v : DistVolume) (hv : ownStart.fed.volumes[n]? = some v) (_ : v.cloneOf = none) :
    v.legs ≠ [] := by
  rw [(ownStart_volume hv).2]
  exact List.cons_ne_nil _ _

theorem parents_stay_small : ∃ p, (operations plainConfig Branches).Run (fun _ w' => Spared w') ⟨ownStart, []⟩ p ∧
    p.state.fed.volumes.keys = ["c", "u"] ∧ p.state.fed.dependentsOf "u" = ["clone c"] ∧ Parented p.state.fed ∧
    ∃ why, Api.deletable "u" p.state.fed = .error (.conflict why) := by
  have hr : (operations plainConfig Branches).Run (fun _ w' => Spared w') ⟨ownStart, []⟩
      ((operations plainConfig Branches).final (fun _ w' => Spared w') ⟨ownStart, []⟩
        (cloneAndDelete 8 ++ List.replicate 2 (.run 1 plainReply))) :=
    System.run_final (fun _ _ => of_decide_eq_true) (by decide +kernel)
  obtain ⟨v, hv⟩ := Option.isSome_iff_exists.mp (show ((operations plainConfig Branches).final (fun _ w' => Spared w')
    ⟨ownStart, []⟩ (cloneAndDelete 8 ++ List.replicate 2 (.run 1 plainReply))).state.fed.volumes["u"]?.isSome by
      decide +kernel)
  obtain ⟨hparents, hrefused⟩ := parents_stay hr named_ownStart legs_ownStart parented_ownStart rfl
  exact ⟨_, hr, by decide +kernel, by decide +kernel, hparents, hrefused "u" v hv (by decide +kernel)⟩

/-- The clone has called the engine, and not recorded yet, when u is deleted. -/
theorem not_parents_stay : ¬ ∀ (w : AppState) (p : Pool Reply AppState Fault),
    (operations plainConfig Branches).Run (fun _ _ => True) ⟨w, []⟩ p → Named w.fed →
    (∀ (n : String) v, w.fed.volumes[n]? = some v → v.cloneOf = none → v.legs ≠ []) → Parented w.fed →
    w.undertakings = [] → Parented p.state.fed := by
  intro h
  have hr : (operations plainConfig Branches).Run (fun _ _ => True) ⟨ownStart, []⟩
      ((operations plainConfig Branches).final (fun _ _ => true) ⟨ownStart, []⟩
        (cloneAndDelete 3 ++ List.replicate 8 (.run 1 plainReply) ++ [.run 0 plainReply])) :=
    System.run_final (fun _ _ _ => trivial) (by decide +kernel)
  obtain ⟨c, hc, hd⟩ := Option.any_eq_true _ _ |>.mp (show ((((operations plainConfig Branches).final (fun _ _ => true)
    ⟨ownStart, []⟩ (cloneAndDelete 3 ++ List.replicate 8 (.run 1 plainReply) ++
      [.run 0 plainReply])).state.fed.volumes["c"]?).any
      fun v => v.cloneOf = some { source := .volume "u", parent := "u" }) = true by decide +kernel)
  obtain ⟨v, hv, -⟩ := (h _ _ hr named_ownStart legs_ownStart parented_ownStart rfl).clones "c" c _ hc
    (of_decide_eq_true hd)
  have hgone : ((operations plainConfig Branches).final (fun _ _ => true) ⟨ownStart, []⟩
      (cloneAndDelete 3 ++ List.replicate 8 (.run 1 plainReply) ++
        [.run 0 plainReply])).state.fed.volumes["u"]? = none := by decide +kernel
  cases hgone.symm.trans hv

end StormStorage
