import StormStorage.Proof.Volumes.Claims
import StormStorage.Proof.Volumes.HeadLeg

/-!
# Legs stay in domains of their own

A replacement is planned against the legs that stay, and its new leg takes the
old one's place when it has rebuilt. In between the legs are the claim
holder's alone to change (`Holds`), so a leg that was planned into a domain of
its own is put there (`legs_apart`). A target asked for by name is not checked
against the legs that stay.
-/

namespace StormStorage

open Await Task Orchestrate

/-! ## Layouts -/

/-- Where a volume's legs are, and the one that is coming. -/
structure Layout where
  nodes : List String
  rung : String
  replacing : Option Replacement

def DistVolume.layout (v : DistVolume) : Layout where
  nodes := v.legs.map (·.node)
  rung := v.rung
  replacing := v.replacing

def AppState.layoutAt (w : AppState) (name : String) : Option Layout := (w.fed.volumes[name]?).map (·.layout)

/-- The labels of the nodes that there are. -/
abbrev LabelMap := String → Option (KeyMap String)

def FedState.labelMap (fed : FedState) : LabelMap := fun n => (fed.nodes[n]?).map Node.labels

/-- The domain of a node at a rung. -/
def LabelMap.domain (labels : LabelMap) (rungs : List String) (rung node : String) : Option String :=
  (labels node).map fun l => domainAt l rungs rung

/-- The nodes have these labels, under their names. -/
structure Labelled (labels : LabelMap) (w : AppState) : Prop where
  labels : w.fed.labelMap = labels
  named : ∀ (k : String) n, w.fed.nodes[k]? = some n → n.config.name = k

section

variable (labels : LabelMap) (cfg : Config)

/-- The legs are in domains of their own, and so is the one that is coming,
beside those that stay. -/
structure Apart (l : Layout) : Prop where
  apart : (l.nodes.map (labels.domain cfg.rungs l.rung)).Nodup
  coming : ∀ rep, l.replacing = some rep → ∀ n ∈ l.nodes, n ≠ rep.from →
    labels.domain cfg.rungs l.rung n ≠ labels.domain cfg.rungs l.rung rep.leg.node

/-- No target asked for is in the domain of a leg that stays. -/
def Uncrowded (log : List Event) : Prop := ∀ v «from» target, .asked v «from» target true ∉ log

end

/-- A leg in the place of the one that leaves, apart from those that stay. -/
theorem nodup_putLeg {β : Type} {f : String → β} {node : String} {leg : Leg} {legs : List Leg}
    (h : (legs.map fun l => f l.node).Nodup) (hb : ∀ l ∈ legs, l.node ≠ node → f l.node ≠ f leg.node) :
    ((putLeg node leg legs).map fun l => f l.node).Nodup := by
  induction legs with
  | nil => exact List.nodup_singleton _
  | cons l ls ih =>
    obtain ⟨hl, hls⟩ := List.nodup_cons.mp h
    unfold putLeg
    split
    · rename_i hn
      refine List.nodup_cons.mpr ⟨fun hm => ?_, hls⟩
      obtain ⟨x, hx, he⟩ := List.mem_map.mp hm
      by_cases hxn : x.node = node
      · exact hl (List.mem_map.mpr ⟨x, hx, by rw [hxn, ← hn]⟩)
      · exact hb x (List.mem_cons_of_mem _ hx) hxn he
    · rename_i hn
      refine List.nodup_cons.mpr ⟨fun hm => ?_, ih hls fun x hx => hb x (List.mem_cons_of_mem _ hx)⟩
      obtain ⟨x, hx, he⟩ := List.mem_map.mp hm
      rcases mem_putLeg hx with rfl | hx
      · exact hb l (List.mem_cons_self ..) hn he.symm
      · exact hl (List.mem_map.mpr ⟨x, hx, he⟩)

/-! ## Who may change a layout -/

/-- What holds at every moment. -/
structure ApartInv (labels : LabelMap) (cfg : Config) (w : AppState) : Prop where
  apart : ∀ name l, w.layoutAt name = some l → Apart labels cfg l
  /-- What was handed to the background is claimed. -/
  handed : ∀ s ∈ w.spawned, w.replacing.contains s.name
  once : (w.spawned.map Spawn.name).Nodup
  labelled : Labelled labels w

/-- A step leaves what another task holds alone. -/
def ApartGuar (u : Option Nat) (w w' : AppState) : Prop :=
  ∀ name t, u ≠ some t → Holds t name w → Holds t name w' ∧ w'.layoutAt name = w.layoutAt name

@[reducible] def apartDiscipline (labels : LabelMap) (cfg : Config) : Discipline AppState where
  inv := ApartInv labels cfg
  ok _ w' := Labelled labels w' ∧ Uncrowded w'.log
  guar := ApartGuar

section

variable {labels : LabelMap} {cfg : Config} {w w' : AppState} {me t : Nat} {u : Option Nat} {name : String}
  {l l' : Layout}

/-- The claim and the layout under it. -/
def Held (t : Nat) (name : String) (l : Layout) (w : AppState) : Prop := Holds t name w ∧ w.layoutAt name = some l

theorem stable_holds : (apartDiscipline labels cfg).Stable t (Holds t name) :=
  fun _ _ _ hu _ _ hg hs => (hg name t hu hs).1

theorem stable_held : (apartDiscipline labels cfg).Stable t (Held t name l) :=
  fun _ _ _ hu _ _ hg hs => ⟨(hg name t hu hs.1).1, (hg name t hu hs.1).2.trans hs.2⟩

/-- A step that changes neither claims nor layouts. -/
theorem ApartInv.neutral (hi : ApartInv labels cfg w) (hl : Labelled labels w') (hr : w'.replacing = w.replacing)
    (hs : w'.spawned = w.spawned) (hlay : ∀ n, w'.layoutAt n = w.layoutAt n) :
    ApartInv labels cfg w' ∧ ApartGuar u w w' := by
  refine ⟨⟨fun n l h => hi.apart n l (by rwa [hlay] at h), ?_, ?_, hl⟩, fun n t _ h => ⟨?_, hlay n⟩⟩
  · rw [hr, hs]
    exact hi.handed
  · rw [hs]
    exact hi.once
  · rw [Holds, hr, hs]
    exact h

theorem ApartInv.remote (hi : ApartInv labels cfg w) (h : Remote w w') :
    ApartInv labels cfg w' ∧ ApartGuar u w w' := by
  refine hi.neutral ⟨?_, ?_⟩ h.replacing h.spawned fun n => ?_
  · rw [h.fed]
    exact hi.labelled.labels
  · rw [h.fed]
    exact hi.labelled.named
  · rw [AppState.layoutAt, h.fed]
    rfl

/-- The holder changes the layout. -/
theorem ApartInv.changed (hi : ApartInv labels cfg w) (hl : Labelled labels w') (hh : Holds me name w)
    (hr : w'.replacing = w.replacing) (hs : w'.spawned = w.spawned)
    (hlay : ∀ n, n ≠ name → w'.layoutAt n = w.layoutAt n) (hnew : ∀ l, w'.layoutAt name = some l → Apart labels cfg l) :
    ApartInv labels cfg w' ∧ ApartGuar (some me) w w' := by
  refine ⟨⟨fun n l h => ?_, ?_, ?_, hl⟩, fun n t hu h => ⟨?_, hlay n (hh.other hu h)⟩⟩
  · by_cases hn : n = name
    · exact hnew l (hn ▸ h)
    · exact hi.apart n l (by rwa [hlay n hn] at h)
  · rw [hr, hs]
    exact hi.handed
  · rw [hs]
    exact hi.once
  · rw [Holds, hr, hs]
    exact h

/-! ### Claims -/

/-- A claim that was free is taken. -/
theorem ApartInv.claimed (hi : ApartInv labels cfg w) (hl : Labelled labels w') (hfree : w.replacing.contains name = false)
    (h : w' = { w with replacing := w.replacing.insert name ⟨me⟩ }) :
    ApartInv labels cfg w' ∧ ApartGuar (some me) w w' ∧ Holds me name w' := by
  subst h
  exact ⟨⟨hi.apart, fun s hs => contains_claimed me (hi.handed s hs), hi.once, hl⟩,
    fun n t _ h => ⟨h.claimed hfree, rfl⟩, holds_claimed hfree hi.handed⟩

/-- The holder lets go. -/
theorem ApartInv.letGo (hi : ApartInv labels cfg w) (hl : Labelled labels w') (hh : Holds me name w)
    (h : w' = { w.release name with copies := w.copies.erase name }) :
    ApartInv labels cfg w' ∧ ApartGuar (some me) w w' := by
  subst h
  exact ⟨⟨hi.apart, fun s hs => contains_letGo hh hs (hi.handed s hs), hi.once, hl⟩,
    fun n t hu h => ⟨hh.letGo hu rfl rfl h, rfl⟩⟩

/-- The holder hands its claim over. -/
theorem ApartInv.spawn (hi : ApartInv labels cfg w) (hl : Labelled labels w') {s : Spawn} (hh : Holds me s.name w)
    (h : w' = { w with spawned := w.spawned ++ [s] }) : ApartInv labels cfg w' ∧ ApartGuar (some me) w w' := by
  subst h
  refine ⟨⟨hi.apart, fun x hx => ?_, once_spawn hh hi.once, hl⟩, fun n t hu h => ⟨hh.spawn hu h, rfl⟩⟩
  rcases List.mem_append.mp hx with hx | hx
  · exact hi.handed x hx
  · rw [List.mem_singleton.mp hx, KeyMap.contains_eq, hh.1]
    rfl

/-- A background operation takes the claim it was handed. -/
theorem ApartInv.spawnedBy (hi : ApartInv labels cfg w) (hl : Labelled labels w') {s : Spawn} (hs : s ∈ w.spawned)
    (h : w' = { w with spawned := w.spawned.erase s, replacing := w.replacing.insert s.name ⟨me⟩ }) :
    ApartInv labels cfg w' ∧ ApartGuar (some me) w w' ∧ Holds me s.name w' := by
  subst h
  refine ⟨⟨hi.apart, fun x hx => contains_claimed me (hi.handed x (List.mem_of_mem_erase hx)), ?_, hl⟩,
    fun n t _ h => ⟨h.spawnedBy hs, rfl⟩, holds_spawnedBy hi.once hs⟩
  exact hi.once.sublist ((List.erase_sublist ..).map _)

/-! ## Planning -/

/-- The target is in a domain of its own beside the legs that stay. -/
def Planned (labels : LabelMap) (cfg : Config) («from» : String) (p : Replaceable) : Prop :=
  ∀ n ∈ p.vol.layout.nodes, n ≠ «from» →
    labels.domain cfg.rungs p.vol.rung n ≠ labels.domain cfg.rungs p.vol.rung p.target

theorem domain_of_node (hl : Labelled labels w) {node rung : String} {n : Node} (hn : w.fed.nodes[node]? = some n) :
    labels.domain cfg.rungs rung node = some (domainAt n.labels cfg.rungs rung) := by
  rw [LabelMap.domain, ← hl.labels, FedState.labelMap, hn]
  rfl

theorem planned_of_free (hl : Labelled labels w) {«from» : String} {p : Replaceable} {n : Node}
    (hn : w.fed.nodes[p.target]? = some n)
    (hfree : domainAt n.labels cfg.rungs p.vol.rung ∉ stayingDomains cfg w.fed p.vol «from») :
    Planned labels cfg «from» p := by
  refine fun m hm hne he => hfree ?_
  obtain ⟨leg, hleg, rfl⟩ := List.mem_map.mp hm
  rw [domain_of_node hl hn] at he
  cases hk : w.fed.nodes[leg.node]? with
  | none =>
    rw [LabelMap.domain, ← hl.labels, FedState.labelMap, hk] at he
    cases he
  | some k =>
    rw [domain_of_node hl hk] at he
    exact List.mem_filterMap.mpr ⟨leg, List.mem_filter.mpr ⟨hleg, by simpa using hne⟩, by rw [hk, ← Option.some.inj he]; rfl⟩

theorem replaceable_ok {«from» : String} {«to» : Option String} {fed : FedState} {p : Replaceable}
    (h : replaceable cfg name «from» «to» fed = .ok p) :
    fed.volumes[name]? = some p.vol ∧ chooseTarget cfg fed p.vol «from» «to» = .ok p.target ∧
      fed.nodes.contains p.target = true ∧ p.vol.replacing = none := by
  obtain ⟨vol, hvol, h⟩ := check_bind.mp h
  split at h
  · cases h
  split at h
  · cases h
  rename_i hfree
  split at h
  · cases h
  split at h
  · cases h
  · split at h
    · cases h
    · obtain ⟨target, htarget, h⟩ := check_bind.mp h
      obtain ⟨_, hknown, h⟩ := check_bind.mp h
      obtain ⟨_, -, h⟩ := check_bind.mp h
      obtain rfl := Except.ok.inj h
      refine ⟨findVolume_eq.mp hvol, htarget, ?_, by simpa using hfree⟩
      unfold engineOf at hknown
      split at hknown
      · assumption
      · cases hknown

/-- A target that placement picks, or one that is asked for and not crowded. -/
theorem planned_of_replaceable (hl : Labelled labels w) {«from» : String} {«to» : Option String} {p : Replaceable}
    (h : replaceable cfg name «from» «to» w.fed = .ok p)
    (hc : «to».isSome → crowded cfg w.fed p.vol «from» p.target = false) : Planned labels cfg «from» p := by
  obtain ⟨-, htarget, hknown, -⟩ := replaceable_ok h
  cases «to» with
  | some t =>
    rw [KeyMap.contains_eq] at hknown
    obtain ⟨n, hn⟩ := Option.isSome_iff_exists.mp hknown
    have hcrowd := hc rfl
    rw [crowded, hn, Option.any_some] at hcrowd
    exact planned_of_free hl hn (of_decide_eq_false hcrowd)
  | none =>
    unfold chooseTarget at htarget
    dsimp only at htarget
    split at htarget
    · rename_i picks hplan
      obtain ⟨ps, rfl, hin, -, hlen⟩ := plan_picks hplan
      obtain ⟨c, rfl⟩ := List.length_eq_one_iff.mp hlen
      obtain ⟨hc, -⟩ := hin c (List.mem_singleton_self c)
      obtain ⟨n, hn, rfl⟩ := List.mem_map.mp hc
      obtain ⟨hn, hok⟩ := List.mem_filter.mp hn
      obtain ⟨⟨k, n⟩, hk, rfl⟩ := List.mem_map.mp hn
      have hk := KeyMap.mem_toList.mp hk
      have ht : p.target = k := by
        rw [← Except.ok.inj htarget]
        exact hl.named k n hk
      exact planned_of_free hl (ht ▸ hk) (of_decide_eq_true hok).2.2
    · cases htarget

/-! ## The programs -/

/-- A task that goes on beside the others. -/
abbrev ApartSafe (labels : LabelMap) (cfg : Config) (t : Nat) {α : Type} (task : Async α)
    (Q : Except Fault α → AppState → Prop) (w : AppState) : Prop := task.Safe (apartDiscipline labels cfg) t Q w

theorem stable_true : (apartDiscipline labels cfg).Stable t fun _ => True := fun _ _ _ _ _ _ _ _ => trivial

theorem held_remote (h : Remote w w') (hh : Held t name l w) : Held t name l w' := by
  refine ⟨⟨by rw [h.replacing]; exact hh.1.1, by rw [h.spawned]; exact hh.1.2⟩, ?_⟩
  rw [AppState.layoutAt, h.fed]
  exact hh.2

theorem holds_remote (h : Remote w w') (hh : Holds t name w) : Holds t name w' :=
  ⟨by rw [h.replacing]; exact hh.1, by rw [h.spawned]; exact hh.2⟩

/-- A phase of calls, under the claim. -/
theorem held_calls {α : Type} {task : Async α} {Q : α → Prop} (ht : task.Only Remote) (hq : task.Answers Q)
    (hi : ApartInv labels cfg w) (hh : Held t name l w) :
    ApartSafe labels cfg t task (fun x s => Held t name l s ∧ ∀ a, x = .ok a → Q a) w :=
  Safe.of_answers ht hq stable_held
    (fun _ _ hi hs h _ => ⟨(hi.remote (u := none) h).1, (hi.remote h).2, held_remote h hs⟩) hi hh

theorem holds_calls {α : Type} {task : Async α} (ht : task.Only Remote) (hi : ApartInv labels cfg w)
    (hh : Holds t name w) : ApartSafe labels cfg t task (fun _ s => Holds t name s) w :=
  (Safe.of_only ht stable_holds
    (fun _ _ hi hs h _ => ⟨(hi.remote (u := none) h).1, (hi.remote h).2, holds_remote h hs⟩) hi hh).mono fun _ _ h => h.2

theorem safe_claim (hi : ApartInv labels cfg w) :
    ApartSafe labels cfg t (claim t name) (fun x s => x = .ok true → Holds t name s) w := by
  refine Safe.step (P := fun _ => True) stable_true (fun s i hi _ _ hok => ?_) hi trivial
  dsimp only at hok ⊢
  split
  · rename_i hbusy
    rw [if_pos hbusy] at hok
    obtain ⟨hi', hg⟩ := hi.neutral (u := some t) hok.1 rfl rfl fun _ => rfl
    exact ⟨hi', hg, Safe.ret stable_true (fun _ _ _ h => nomatch h) hi' trivial⟩
  · rename_i hfree
    rw [if_neg hfree] at hok
    obtain ⟨hi', hg, hh⟩ : _ ∧ ApartGuar (some t) _ _ ∧ Holds t name _ :=
      hi.claimed hok.1 (Bool.eq_false_of_not_eq_true hfree) rfl
    exact ⟨hi', hg, Safe.ret stable_holds (fun _ _ h _ => h) hi' hh⟩

theorem safe_letGo (hi : ApartInv labels cfg w) (hh : Holds t name w) :
    ApartSafe labels cfg t (letGo name) (fun _ _ => True) w := by
  refine Safe.step stable_holds (fun s i hi hh _ hok => ?_) hi hh
  obtain ⟨hi', hg⟩ := hi.letGo hok.1 hh rfl
  exact ⟨hi', hg, Safe.ret stable_true (fun _ _ _ => trivial) hi' trivial⟩

theorem safe_spawn {s : Spawn} (hi : ApartInv labels cfg w) (hh : Holds t s.name w) :
    ApartSafe labels cfg t (spawn s) (fun _ _ => True) w := by
  refine Safe.step stable_holds (fun s i hi hh _ hok => ?_) hi hh
  obtain ⟨hi', hg⟩ := hi.spawn hok.1 hh rfl
  exact ⟨hi', hg, Safe.ret stable_true (fun _ _ _ => trivial) hi' trivial⟩

theorem safe_beginReplacement {«from» : String} {«to» : Option String} (hi : ApartInv labels cfg w)
    (hh : Holds t name w) :
    ApartSafe labels cfg t (beginReplacement cfg name «from» «to») (fun x s => Holds t name s ∧
      ∀ p, x = .ok p → Held t name p.vol.layout s ∧ Planned labels cfg «from» p) w := by
  refine Safe.step stable_holds (fun s i hi hh _ hok => ?_) hi hh
  dsimp only at hok ⊢
  split
  · rename_i p hp
    simp only [hp] at hok
    have hc : «to».isSome → crowded cfg s.fed p.vol «from» p.target = false := by
      intro h
      rw [if_pos h] at hok
      cases hcr : crowded cfg s.fed p.vol «from» p.target with
      | false => rfl
      | true => exact absurd (List.mem_append_right _ (by rw [hcr]; exact List.mem_singleton_self _)) (hok.2 _ _ _)
    have hpl := planned_of_replaceable hi.labelled hp hc
    have hlay : s.layoutAt name = some p.vol.layout := by
      rw [AppState.layoutAt, (replaceable_ok hp).1]
      rfl
    have hrem : Remote s (if «to».isSome then
        s.note (.asked p.vol «from» p.target (crowded cfg s.fed p.vol «from» p.target)) else s) := by
      split
      · exact remote_note s _
      · exact .refl s
    obtain ⟨hi', hg⟩ := hi.remote hrem
    refine ⟨hi', hg, ?_⟩
    refine Safe.ret (a := p) stable_held (fun s _ h => ⟨h.1, fun p' he => ?_⟩) hi' (held_remote hrem ⟨hh, hlay⟩)
    exact Except.ok.inj he ▸ ⟨h, hpl⟩
  · rename_i e he
    simp only [he] at hok
    obtain ⟨hi', hg⟩ := hi.neutral (u := some t) hok.1 rfl rfl fun _ => rfl
    exact ⟨hi', hg, Safe.fail (e := e) stable_holds (fun _ _ h => ⟨h, fun _ h => nomatch h⟩) hi' hh⟩

theorem Apart.record {«from» reason : String} {leg : Leg} {now : SystemTime} (h : Apart labels cfg l)
    (hown : ∀ n ∈ l.nodes, n ≠ «from» → labels.domain cfg.rungs l.rung n ≠ labels.domain cfg.rungs l.rung leg.node) :
    Apart labels cfg { l with replacing := some ⟨«from», leg, reason, now⟩ } where
  apart := h.apart
  coming _ hr := Option.some.inj hr ▸ hown

theorem layoutAt_insert (v : DistVolume) {n : String} (hf : w'.fed.volumes = w.fed.volumes.insert name v) :
    w'.layoutAt n = if name = n then some v.layout else w.layoutAt n := by
  rw [AppState.layoutAt, hf, KeyMap.get_insert]
  split <;> rfl

theorem safe_recordReplacement {«from» reason : String} {leg : Leg} (hi : ApartInv labels cfg w)
    (hh : Held t name l w)
    (hown : ∀ n ∈ l.nodes, n ≠ «from» → labels.domain cfg.rungs l.rung n ≠ labels.domain cfg.rungs l.rung leg.node) :
    ApartSafe labels cfg t (recordReplacement t name «from» leg reason) (fun _ s => Holds t name s) w := by
  refine Safe.step stable_held (fun s i hi hh _ hok => ?_) hi hh
  dsimp only at hok ⊢
  split
  · rename_i hnone
    simp only [hnone] at hok
    obtain ⟨hi', hg⟩ := hi.neutral (u := some t) hok.1 rfl rfl fun _ => rfl
    exact ⟨hi', hg, Safe.ret stable_holds (fun _ _ h => h) hi' hh.1⟩
  · rename_i v hv
    simp only [hv] at hok
    have hlay : v.layout = l := by
      have := hh.2
      rw [AppState.layoutAt, hv] at this
      exact Option.some.inj this
    have hnew : Apart labels cfg { v.layout with replacing := some ⟨«from», leg, reason, i.now⟩ } := by
      rw [hlay]
      exact (hi.apart name l hh.2).record hown
    obtain ⟨hi', hg⟩ := hi.changed hok.1 hh.1 rfl rfl
      (fun n hn => by rw [layoutAt_insert (w := s) _ rfl, if_neg (Ne.symm hn)])
      (fun l' hl' => by
        rw [layoutAt_insert (w := s) _ rfl, if_pos rfl] at hl'
        exact Option.some.inj hl' ▸ hnew)
    exact ⟨hi', hg, Safe.ret stable_holds (fun _ _ h => h) hi' hh.1⟩

theorem safe_undoLeg {leg : Leg} {e : Fault} (hi : ApartInv labels cfg w) (hh : Holds t name w) :
    ApartSafe labels cfg t (do
      undoLeg t leg
      .fail e : Async String) (fun _ s => Holds t name s) w :=
  (holds_calls remote_undoLeg hi hh).bind hi
    (fun _ _ hi hh => Safe.fail stable_holds (fun _ _ h => h) hi hh) fun _ _ h => h

theorem safe_buildReplacement {«from» reason : String} {«to» : Option String} (hi : ApartInv labels cfg w)
    (hh : Holds t name w) :
    ApartSafe labels cfg t (buildReplacement cfg t name «from» «to» reason) (fun _ s => Holds t name s) w := by
  refine (safe_beginReplacement hi hh).bind hi (fun p w hi h => ?_) fun _ _ h => h.1
  obtain ⟨hh, hplan⟩ := h.2 p rfl
  split
  · exact Safe.fail stable_holds (fun _ _ h => h) hi hh.1
  · refine (held_calls remote_makeLeg answers_makeLeg hi hh).bind hi (fun leg w hi h => ?_) fun _ _ h => h.1.1
    obtain ⟨id, master, hleg⟩ := h.2 leg rfl
    refine (held_calls remote_wireLeg answers_wireLeg hi h.1).bind hi (fun r w hi h => ?_) fun _ _ h => h.1.1
    have hnode : r.1.node = p.target := congrArg Prod.fst ((h.2 r rfl).trans hleg)
    split
    · exact safe_undoLeg hi h.1.1
    · rename_i leg'
      have hown : ∀ n ∈ p.vol.layout.nodes, n ≠ «from» → labels.domain cfg.rungs p.vol.layout.rung n ≠
          labels.domain cfg.rungs p.vol.layout.rung leg'.node := by
        intro n hn hne
        rw [show leg'.node = p.target from hnode]
        exact hplan n hn hne
      have hrecord : ApartSafe labels cfg t (recordReplacement t name «from» leg' reason) (fun _ s => Holds t name s) w :=
        safe_recordReplacement hi h.1 hown
      refine hrecord.bind hi (fun ok w hi hh => ?_) fun _ _ h => h
      split
      · exact Safe.ret stable_holds (fun _ _ h => h) hi hh
      · exact safe_undoLeg hi hh

theorem safe_startReplacement {«from» reason : String} {«to» : Option String} (hi : ApartInv labels cfg w) :
    ApartSafe labels cfg t (startReplacement cfg t name «from» «to» reason) (fun _ _ => True) w := by
  refine (safe_claim hi).bind hi (fun mine w hi h => ?_) fun _ _ _ => trivial
  cases mine with
  | false => exact Safe.fail stable_true (fun _ _ _ => trivial) hi trivial
  | true =>
    refine (safe_buildReplacement hi (h rfl)).attempt_bind hi fun x w hi hh => ?_
    cases x with
    | ok target =>
      exact (safe_spawn (s := .finish name) hi hh).bind hi
        (fun _ _ hi _ => Safe.ret stable_true (fun _ _ _ => trivial) hi trivial) fun _ _ _ => trivial
    | error e =>
      exact (safe_letGo hi hh).bind hi
        (fun _ _ hi _ => Safe.fail stable_true (fun _ _ _ => trivial) hi trivial) fun _ _ _ => trivial

/-! ### Finishing -/

theorem Apart.swap {v : DistVolume} {rep : Replacement} (h : Apart labels cfg v.layout)
    (hrep : v.replacing = some rep) : Apart labels cfg (swapLeg rep v).layout := by
  have hown := h.coming rep hrep
  refine ⟨?_, fun _ hr => nomatch hr⟩
  have hap : (v.legs.map fun l => labels.domain cfg.rungs v.rung l.node).Nodup := by
    have := h.apart
    rwa [DistVolume.layout, List.map_map] at this
  have hput : ((putLeg rep.from { rep.leg with message := none } v.legs).map fun l =>
      labels.domain cfg.rungs v.rung l.node).Nodup :=
    nodup_putLeg hap fun l hl hne => hown _ (List.mem_map_of_mem hl) hne
  rwa [DistVolume.layout, List.map_map]

theorem Apart.settle {v : DistVolume} {after : Option SystemTime} (h : Apart labels cfg v.layout) :
    Apart labels cfg ({ v with replacing := none, nextRelegAfter := after } : DistVolume).layout :=
  ⟨h.apart, fun _ hr => nomatch hr⟩

theorem layoutAt_modify (fed : FedState) (f : DistVolume → DistVolume) (n : String) :
    (((fed.modifyVolume name f).volumes)[n]?).map (·.layout) =
      if name = n then (fed.volumes[n]?).map fun v => (f v).layout else (fed.volumes[n]?).map (·.layout) := by
  unfold FedState.modifyVolume
  split
  · rename_i hnone
    split
    · rename_i he
      rw [← he, hnone]
      rfl
    · rfl
  · rename_i v hv
    rw [KeyMap.get_insert]
    split
    · rename_i he
      rw [← he, hv]
      rfl
    · rfl

/-- The holder changes its volume's record where it stands. -/
theorem ApartInv.modify (hi : ApartInv labels cfg w) (hl : Labelled labels w') (hh : Holds me name w)
    {f : DistVolume → DistVolume} (fed : FedState) (hfed : fed.volumes = w.fed.volumes)
    (hw : w'.fed.volumes = (fed.modifyVolume name f).volumes) (hr : w'.replacing = w.replacing)
    (hs : w'.spawned = w.spawned)
    (hnew : ∀ v, w.fed.volumes[name]? = some v → Apart labels cfg v.layout → Apart labels cfg (f v).layout) :
    ApartInv labels cfg w' ∧ ApartGuar (some me) w w' := by
  have hlay : ∀ n, w'.layoutAt n =
      if name = n then (w.fed.volumes[n]?).map fun v => (f v).layout else w.layoutAt n := fun n => by
    rw [AppState.layoutAt, hw, layoutAt_modify, hfed]
    rfl
  refine hi.changed hl hh hr hs (fun n hn => by rw [hlay, if_neg (Ne.symm hn)]) fun l hl' => ?_
  rw [hlay, if_pos rfl] at hl'
  obtain ⟨v, hv, rfl⟩ := Option.map_eq_some_iff.mp hl'
  exact hnew v hv (hi.apart name _ (by rw [AppState.layoutAt, hv]; rfl))

/-- The new leg takes its place in the record. -/
theorem safe_recordSwap {rep : Replacement} {orphan : Option Orphan} (hi : ApartInv labels cfg w)
    (hh : Held t name l w)
    (hrep : ∀ s : AppState, Held t name l s → ∀ v, s.fed.volumes[name]? = some v → v.replacing = some rep) :
    ApartSafe labels cfg t (recordSwap name rep orphan) (fun _ s => Holds t name s) w := by
  refine Safe.step stable_held (fun s i hi hh _ hok => ?_) hi hh
  obtain ⟨v, hv, -⟩ := Option.map_eq_some_iff.mp hh.2
  simp only [hv] at hok ⊢
  obtain ⟨hi', hg⟩ := hi.modify hok.1 hh.1 (f := swapLeg rep)
    { s.fed with orphans := s.fed.orphans ++ orphan.toList } rfl rfl rfl rfl
    fun v' hv' ha => ha.swap (hrep s hh v' hv')
  exact ⟨hi', hg, Safe.ret stable_holds (fun _ _ h => h) hi' hh.1⟩

theorem safe_finishInner (hi : ApartInv labels cfg w) (hh : Holds t name w) :
    ApartSafe labels cfg t (finishInner cfg t name) (fun _ s => Holds t name s) w := by
  refine Safe.step stable_holds (fun s i hi hh _ hok => ?_) hi hh
  obtain ⟨hi, hg⟩ := hi.neutral (u := some t) hok.1 rfl rfl fun _ => rfl
  refine ⟨hi, hg, ?_⟩
  rw [ret_bind]
  split
  · exact Safe.ret stable_holds (fun _ _ h => h) hi hh
  · rename_i rep' owner hrep
    obtain ⟨rep, hready, he⟩ := Option.map_eq_some_iff.mp hrep
    obtain rfl : rep = rep' := (Prod.mk.inj he).1
    obtain ⟨v, hv, hvrep⟩ := finishReady_eq hready
    have hheld : Held t name v.layout s := ⟨hh, by rw [AppState.layoutAt, hv]; rfl⟩
    have hsame : ∀ s : AppState, Held t name v.layout s → ∀ v', s.fed.volumes[name]? = some v' →
        v'.replacing = some rep := by
      intro s hs v' hv'
      have := hs.2
      rw [AppState.layoutAt, hv'] at this
      have := congrArg Layout.replacing (Option.some.inj this)
      exact this.trans hvrep
    refine (held_calls (remote_ask _) (answers_true _) hi hheld).bind hi (fun done s hi h => ?_) fun _ _ h => h.1.1
    split
    · refine (held_calls remote_retireOld (answers_true _) hi h.1).bind hi (fun orphan s hi h => ?_) fun _ _ h => h.1.1
      exact safe_recordSwap hi h.1 hsame
    · refine (held_calls remote_undoLeg (answers_true _) hi h.1).bind hi (fun _ s hi h => ?_) fun _ _ h => h.1.1
      refine Safe.step stable_held (fun s i hi hh _ hok => ?_) hi h.1
      obtain ⟨hi', hg⟩ := hi.modify hok.1 hh.1 s.fed rfl rfl rfl rfl fun v' _ ha => ha.settle
      exact ⟨hi', hg, Safe.ret stable_holds (fun _ _ h => h) hi' hh.1⟩

theorem safe_finishReplacement (hi : ApartInv labels cfg w) :
    ApartSafe labels cfg t (finishReplacement cfg t name) (fun _ _ => True) w := by
  refine Safe.step (P := fun _ => True) stable_true (fun s i hi _ hready hok => ?_) hi trivial
  obtain ⟨hi, hg, hh⟩ : _ ∧ ApartGuar (some t) _ _ ∧ Holds t name _ :=
    hi.spawnedBy (s := .finish name) hok.1 (of_decide_eq_true hready) rfl
  refine ⟨hi, hg, ?_⟩
  rw [ret_bind]
  exact (safe_finishInner hi hh).attempt_bind hi fun _ s hi hh => safe_letGo hi hh

/-! ### The reconciler's passes -/

/-- A step that leaves every layout, and the claims. -/
theorem safe_neutral {α : Type} {f : Reply → AppState → α × AppState} (hi : ApartInv labels cfg w)
    (hf : ∀ i s, (f i s).2.replacing = s.replacing ∧ (f i s).2.spawned = s.spawned ∧
      ∀ n, (f i s).2.layoutAt n = s.layoutAt n) :
    ApartSafe labels cfg t (.atomic f) (fun _ _ => True) w := by
  refine Safe.step (P := fun _ => True) stable_true (fun s i hi _ _ hok => ?_) hi trivial
  obtain ⟨hr, hs, hlay⟩ := hf i s
  obtain ⟨hi', hg⟩ := hi.neutral (u := some t) hok.1 hr hs hlay
  exact ⟨hi', hg, Safe.ret stable_true (fun _ _ _ => trivial) hi' trivial⟩

theorem layout_afterLoss (fed : FedState) (v : DistVolume) : (afterLoss fed v).layout = v.layout := by
  unfold afterLoss
  split
  · simp only [DistVolume.layout, List.map_map, Layout.mk.injEq, and_true]
    exact List.map_congr_left fun l _ => node_loseLeg fed l
  · rfl

/-- An edit that leaves the layout. -/
theorem layoutAt_edit {f : DistVolume → DistVolume} (hf : ∀ v, (f v).layout = v.layout) (n : String) :
    (w.setFed (·.modifyVolume name f)).layoutAt n = w.layoutAt n := by
  show (((w.fed.modifyVolume name f).volumes)[n]?).map _ = _
  rw [layoutAt_modify]
  simp only [hf]
  split <;> rfl

theorem safe_startOr {«from» reason : String} {«to» : Option String} {v : String} {f : DistVolume → DistVolume}
    (hf : ∀ v, (f v).layout = v.layout) (hi : ApartInv labels cfg w) :
    ApartSafe labels cfg t (do
      match ← (startReplacement cfg t v «from» «to» reason).attempt with
      | .ok _ => return ()
      | .error _ => .modify (·.setFed (·.modifyVolume v f)) : Async Unit) (fun _ _ => True) w := by
  refine (safe_startReplacement hi).attempt_bind hi fun x s hi _ => ?_
  cases x with
  | ok _ => exact Safe.ret stable_true (fun _ _ _ => trivial) hi trivial
  | error e => exact safe_neutral hi fun i s => ⟨rfl, rfl, layoutAt_edit hf⟩

theorem safe_resume {s : Spawn} (hi : ApartInv labels cfg w) :
    ApartSafe labels cfg t (Orchestrate.resume t s s.name) (fun _ _ => True) w := by
  refine (safe_claim hi).bind hi (fun mine w hi h => ?_) fun _ _ _ => trivial
  cases mine with
  | false => exact Safe.ret stable_true (fun _ _ _ => trivial) hi trivial
  | true => exact safe_spawn hi (h rfl)

/-- A loop whose rounds are safe from any state. -/
theorem safe_forEach {β : Type} {xs : List β} {f : β → Async Unit}
    (hf : ∀ x ∈ xs, ∀ w, ApartInv labels cfg w → ApartSafe labels cfg t (f x) (fun _ _ => True) w)
    (hi : ApartInv labels cfg w) : ApartSafe labels cfg t (.forEach xs f) (fun _ _ => True) w :=
  Safe.forEach (P := fun _ => True) (fun _ _ _ _ _ _ _ => trivial) (fun x hx w hi _ => hf x hx w hi) hi trivial

theorem safe_recover {enabled : Bool} (hi : ApartInv labels cfg w) :
    ApartSafe labels cfg t (recover cfg t enabled) (fun _ _ => True) w := by
  refine (safe_neutral hi fun i s => ⟨rfl, rfl, fun n => ?_⟩).bind hi (fun p w hi _ => ?_) fun _ _ _ => trivial
  · show ((s.fed.volumes.map fun _ v => afterLoss s.fed v)[n]?).map _ = _
    rw [Std.ExtTreeMap.getElem?_map, Option.map_map]
    exact congrArg (Option.map · _) (funext fun v => layout_afterLoss s.fed v)
  · refine (safe_forEach (fun name _ w hi => safe_resume (s := .finish name) hi) hi).bind hi (fun _ w hi _ => ?_)
      fun _ _ _ => trivial
    refine (safe_forEach (fun x _ w hi => ?_) hi).bind hi (fun _ w hi _ => ?_) fun _ _ _ => trivial
    · exact safe_startOr (fun _ => rfl) hi
    exact safe_forEach (fun name _ w hi => safe_resume (s := .assemble name) hi) hi

theorem safe_rebalance {active : Bool} (hi : ApartInv labels cfg w) :
    ApartSafe labels cfg t (Rebalance.run cfg t active) (fun _ _ => True) w := by
  unfold Rebalance.run
  split
  · refine (safe_neutral hi fun _ _ => ⟨rfl, rfl, fun _ => rfl⟩).bind hi (fun p w hi _ => ?_) fun _ _ _ => trivial
    exact safe_forEach (fun x _ w hi => safe_startOr (fun _ => rfl) hi) hi
  · exact Safe.ret stable_true (fun _ _ _ => trivial) hi trivial

theorem safe_prestage {node «from» : Option String} {c : Option BandwidthClass} (hi : ApartInv labels cfg w) :
    ApartSafe labels cfg t (Head.prestage cfg t name node «from» c) (fun _ _ => True) w := by
  refine (safe_neutral hi fun i s => ?_).bind hi (fun x w hi _ => ?_) fun _ _ _ => trivial
  · split
    · exact ⟨rfl, rfl, layoutAt_edit fun _ => rfl⟩
    · exact ⟨rfl, rfl, fun _ => rfl⟩
  · cases x with
    | ok f => exact safe_startReplacement hi
    | error e => exact Safe.fail stable_true (fun _ _ _ => trivial) hi trivial

end

/-- The operations that replace legs. -/
def Replaces : VolumeOp → Prop
  | .move .. | .prestage .. | .rebalance _ | .recover _ | .finish _ => True
  | _ => False

/-- The domains of a volume's legs, at its rung. -/
def legDomains (cfg : Config) (labels : LabelMap) (v : DistVolume) : List (Option String) :=
  v.legs.map fun l => labels.domain cfg.rungs v.rung l.node

/-- In every run of replacements over fixed labels, whose targets that were
asked for are clear of the legs that stay, legs in domains of their own stay so. -/
theorem legs_apart {cfg : Config} {labels : LabelMap} {w : AppState} {p : Pool Reply AppState Fault}
    (h : (operations cfg Replaces).Run (fun _ w' => Labelled labels w' ∧ Uncrowded w'.log) ⟨w, []⟩ p)
    (hl : Labelled labels w) (hidle : w.replacing = ∅ ∧ w.spawned = [])
    (hw : ∀ (name : String) v, w.fed.volumes[name]? = some v → Apart labels cfg v.layout) {name : String} {v : DistVolume}
    (hv : p.state.fed.volumes[name]? = some v) : (legDomains cfg labels v).Nodup := by
  have hkept : System.Run.Kept (apartDiscipline labels cfg) p := by
    refine System.Run.safe (d := apartDiscipline labels cfg) ?_ ?_ ?_ rfl h
    · rintro t ⟨op, hop⟩ w hi
      cases op with
      | move name «from» «to» =>
        exact (safe_startReplacement hi).bind hi
          (fun _ _ hi _ => Safe.ret stable_true (fun _ _ _ => trivial) hi trivial) fun _ _ _ => trivial
      | prestage name node «from» c =>
        exact (safe_prestage hi).bind hi
          (fun _ _ hi _ => Safe.ret stable_true (fun _ _ _ => trivial) hi trivial) fun _ _ _ => trivial
      | rebalance active => exact safe_rebalance hi
      | recover enabled => exact safe_recover hi
      | finish name => exact safe_finishReplacement hi
      | _ => exact hop.elim
    · exact fun nodes w hi hok => hi.neutral hok.1 rfl rfl fun _ => rfl
    · refine ⟨fun n l hn => ?_, by simp [hidle.2], by simp [hidle.2], hl⟩
      obtain ⟨v, hv, rfl⟩ := Option.map_eq_some_iff.mp hn
      exact hw n v hv
  have := (hkept.1.apart name v.layout (by rw [AppState.layoutAt, hv]; rfl)).apart
  rwa [DistVolume.layout, List.map_map] at this

/-! ### A small run -/

/-- A node of a rack. -/
def racked (name rack : String) : Node :=
  let n := nodeOf name true
  { n with config := { n.config with labels := (∅ : KeyMap String).insert "rack" rack } }

def rackNodes (nodes : List (String × String)) : KeyMap Node :=
  nodes.foldl (fun m (n, rack) => m.insert n (racked n rack)) ∅

def rackLeg (node : String) : Leg := { node := node, volumeId := some "d", state := .created, masterNode := some "m" }

/-- A mirror over a and b, by rack. -/
def rackVolume : DistVolume where
  name := "v"
  sizeBytes := 10
  pool := none
  replicas := 2
  rung := "rack"
  legs := [rackLeg "a", rackLeg "b"]
  assembly := .assembled
  head := some "a"
  arrayId := some "arr"
  createdAt := 0

def rackConfig : Config := { plainConfig with rungs := ["rack", "node"] }

/-- The volume is there, on nodes of these racks. -/
def rackStart (nodes : List (String × String)) : AppState :=
  { fed := { nodes := rackNodes nodes, volumes := (∅ : KeyMap DistVolume).insert "v" rackVolume } }

theorem rackStart_volume {nodes : List (String × String)} {name : String} {v : DistVolume}
    (hv : (rackStart nodes).fed.volumes[name]? = some v) : v = rackVolume := by
  simp only [rackStart, KeyMap.get_insert] at hv
  split at hv
  · exact (Option.some.inj hv).symm
  · simp at hv

/-- The leg on a is moved to c. -/
def moveToC : List (VolumeMove Replaces) :=
  .start ⟨.move "v" "a" (some "c"), trivial⟩ :: List.replicate 8 (.run 0 plainReply) ++
    (.start ⟨.finish "v", trivial⟩ :: List.replicate 10 (.run 1 plainReply))

/-- The labels stay, and no target asked for was crowded. -/
def sameRacks (nodes : List (String × String)) (w : AppState) : Bool :=
  w.fed.nodes = rackNodes nodes ∧ w.log.all fun
    | .asked _ _ _ crowded => !crowded
    | _ => true

theorem labelled_racks {nodes : List (String × String)} (hn : ∀ p ∈ (rackNodes nodes).toList, p.2.config.name = p.1)
    {w : AppState} (hw : w.fed.nodes = rackNodes nodes) : Labelled (rackStart nodes).fed.labelMap w where
  labels := congrArg (fun (m : KeyMap Node) n => (m[n]?).map Node.labels) hw
  named k n h := hn (k, n) (KeyMap.mem_toList.mpr (hw ▸ h))

theorem uncrowded_of_sameRacks {nodes : List (String × String)} {w : AppState} (h : sameRacks nodes w = true) :
    w.fed.nodes = rackNodes nodes ∧ Uncrowded w.log := by
  obtain ⟨hn, hl⟩ := of_decide_eq_true h
  exact ⟨hn, fun v «from» target hm => nomatch List.all_eq_true.mp hl _ hm⟩

theorem legs_apart_small : ∃ p v, (operations rackConfig Replaces).Run
    (fun _ w' => Labelled (rackStart [("a", "r1"), ("b", "r2"), ("c", "r3")]).fed.labelMap w' ∧ Uncrowded w'.log)
    ⟨rackStart [("a", "r1"), ("b", "r2"), ("c", "r3")], []⟩ p ∧ p.state.fed.volumes["v"]? = some v ∧
    v.legs.map (·.node) = ["c", "b"] ∧
    (legDomains rackConfig (rackStart [("a", "r1"), ("b", "r2"), ("c", "r3")]).fed.labelMap v).Nodup := by
  have hnamed : ∀ p ∈ (rackNodes [("a", "r1"), ("b", "r2"), ("c", "r3")]).toList, p.2.config.name = p.1 := by
    decide +kernel
  have hr : (operations rackConfig Replaces).Run
      (fun _ w' => Labelled (rackStart [("a", "r1"), ("b", "r2"), ("c", "r3")]).fed.labelMap w' ∧ Uncrowded w'.log)
      ⟨rackStart [("a", "r1"), ("b", "r2"), ("c", "r3")], []⟩
      ((operations rackConfig Replaces).final (fun _ => sameRacks [("a", "r1"), ("b", "r2"), ("c", "r3")])
        ⟨rackStart [("a", "r1"), ("b", "r2"), ("c", "r3")], []⟩ moveToC) :=
    System.run_final (fun _ _ h => ⟨labelled_racks hnamed (uncrowded_of_sameRacks h).1, (uncrowded_of_sameRacks h).2⟩)
      (by decide +kernel)
  obtain ⟨v, hv, hd⟩ := Option.any_eq_true _ _ |>.mp (show (((operations rackConfig Replaces).final
    (fun _ => sameRacks [("a", "r1"), ("b", "r2"), ("c", "r3")])
    ⟨rackStart [("a", "r1"), ("b", "r2"), ("c", "r3")], []⟩ moveToC).state.fed.volumes["v"]?).any
      (fun v => v.legs.map (·.node) = ["c", "b"]) = true by decide +kernel)
  refine ⟨_, v, hr, hv, of_decide_eq_true hd, legs_apart hr (labelled_racks hnamed rfl) ⟨rfl, rfl⟩ ?_ hv⟩
  intro name v hv
  rw [rackStart_volume hv]
  exact ⟨by decide +kernel, fun _ hr => nomatch hr⟩

/-- The operator moves the leg on a to c, beside the leg on b. -/
theorem not_legs_apart : ¬ ∀ (labels : LabelMap) (w : AppState) (p : Pool Reply AppState Fault),
    (operations rackConfig Replaces).Run (fun _ w' => Labelled labels w') ⟨w, []⟩ p → Labelled labels w →
    w.replacing = ∅ ∧ w.spawned = [] →
    (∀ (name : String) v, w.fed.volumes[name]? = some v → Apart labels rackConfig v.layout) →
    ∀ (name : String) v, p.state.fed.volumes[name]? = some v → (legDomains rackConfig labels v).Nodup := by
  intro h
  have hnamed : ∀ p ∈ (rackNodes [("a", "r1"), ("b", "r2"), ("c", "r2")]).toList, p.2.config.name = p.1 := by
    decide +kernel
  have hr : (operations rackConfig Replaces).Run
      (fun _ w' => Labelled (rackStart [("a", "r1"), ("b", "r2"), ("c", "r2")]).fed.labelMap w')
      ⟨rackStart [("a", "r1"), ("b", "r2"), ("c", "r2")], []⟩
      ((operations rackConfig Replaces).final
        (fun _ w => w.fed.nodes = rackNodes [("a", "r1"), ("b", "r2"), ("c", "r2")])
        ⟨rackStart [("a", "r1"), ("b", "r2"), ("c", "r2")], []⟩ moveToC) :=
    System.run_final (fun _ _ h => labelled_racks hnamed (of_decide_eq_true h)) (by decide +kernel)
  obtain ⟨v, hv, hd⟩ := Option.any_eq_true _ _ |>.mp (show (((operations rackConfig Replaces).final
    (fun _ w => w.fed.nodes = rackNodes [("a", "r1"), ("b", "r2"), ("c", "r2")])
    ⟨rackStart [("a", "r1"), ("b", "r2"), ("c", "r2")], []⟩ moveToC).state.fed.volumes["v"]?).any
      (fun v => ¬ (legDomains rackConfig (rackStart [("a", "r1"), ("b", "r2"), ("c", "r2")]).fed.labelMap v).Nodup) =
        true by decide +kernel)
  refine of_decide_eq_true hd (h _ _ _ hr (labelled_racks hnamed rfl) ⟨rfl, rfl⟩ ?_ "v" v hv)
  intro name v hv
  rw [rackStart_volume hv]
  exact ⟨by decide +kernel, fun _ hr => nomatch hr⟩

end StormStorage
