import StormStorage.Proof.Answers
import StormStorage.Proof.Legs.Kept
import StormStorage.Proof.Room
import StormStorage.Proof.Refused

/-!
# A replacement that is answered

What a replacement never does is proved over every run of the operations. Here is
what it comes to: from any record that a replacement can be started on, with
every call answered, a start records the new leg, and the operation in the
background then puts it in the old one's place, or, where the rebuild does not
end, takes it back (`replacement_completes`).

* `comes_makeLeg`, `comes_wireLeg`: a leg is made and comes to be a member;
* `comes_startReplacement`, `comes_finishReplacement`: the two operations.
-/

namespace StormStorage.Orchestrate

open Await Task

/-! ## Calls that are answered -/

/-- A call is answered, with the id of what it makes, an id that its engine
gives to no other volume; `rebuilt` says how the rebuild ends. -/
structure Answered (rebuilt : Bool) (i : Reply) (w : AppState) : Prop where
  wire : i.wire = .answered
  item : i.item.id.isSome
  fresh : ∀ node, w.given node i.made = false
  attach : i.attach.isSome
  id : i.id.isSome
  active : i.active = rebuilt

variable {cfg : Config} {b : Bool} {me : Nat} {name «from» node target reason : String} {w : AppState} {α : Type}

theorem answering : Answering (Answered b) := fun _ _ h => h.wire

theorem comes_attachLeg {id host : String} {Q : AttachedLeg → AppState → Prop}
    (h : ∀ a w', Q a w') : (Engine.attachLeg node id host).Comes (Answered b) Q w := by
  refine comes_callOr answering fun i hi => ?_
  obtain ⟨a, ha⟩ := Option.isSome_iff_exists.mp hi.attach
  exact ⟨_, by rw [Engine.attached, ha], h _ _⟩

theorem comes_actIf {there : Bool} {Q : Unit → AppState → Prop} (h : Q () w) : (actIf there).Comes (Answered b) Q w := by
  cases there with
  | false => exact h
  | true => exact (comes_act answering).attempt_bind fun _ _ hw => hw ▸ h

/-! ## The new leg -/

/-- A leg that was made: its volume is known. -/
structure Made (target : String) (leg : Leg) : Prop where
  node : leg.node = target
  state : leg.state = .created
  volume : leg.volumeId.isSome
  master : leg.masterNode.isSome

theorem comes_makeLeg : (makeLeg me name target).Comes (Answered b) (fun leg _ => Made target leg) w := by
  have hcreate : (Engine.createVolume me target name true).Comes (Answered b) (fun item _ => item.id.isSome) w := by
    refine comes_callOr answering fun i hi => ?_
    have hid : (w.createdId target name i.made).isSome := by
      unfold AppState.createdId
      split
      · rfl
      · rw [hi.fresh target]
        rfl
    obtain ⟨id, hid⟩ := Option.isSome_iff_exists.mp hid
    refine ⟨{ i.item with id := i.item.id.map fun _ => id }, by rw [hid], ?_⟩
    simp [hi.item]
  refine (comes_withContext hcreate).bind fun created w' hid => ?_
  obtain ⟨id, hid⟩ := Option.isSome_iff_exists.mp hid
  simp only [hid]
  exact ⟨rfl, rfl, rfl, rfl⟩

/-- A leg that was wired: it is exported, open on the head and a member there. -/
structure Wired (target : String) (leg : Leg) : Prop extends Made target leg where
  «export» : leg.export.isSome
  drive : leg.driveUuid.isSome
  member : leg.memberUuid.isSome

/-- A call that answers with the id of what was made. -/
theorem comes_id {answer : Reply → Except Fault String} (h : ∀ i uuid, i.id = some uuid → answer i = .ok uuid) :
    (inquire answer).Comes (Answered b) (fun _ _ => True) w := by
  refine comes_inquire answering fun i hi => ?_
  obtain ⟨uuid, hid⟩ := Option.isSome_iff_exists.mp hi.id
  exact ⟨uuid, h i uuid hid, trivial⟩

theorem comes_wireLeg {head : String} {leg : Leg} (h : Made target leg) :
    (wireLeg cfg head leg).Comes (Answered b) (fun r _ => Wired target r.1 ∧ r.2 = none) w := by
  refine (comes_attachLeg fun _ _ => trivial).attempt_bind fun att w _ => ?_
  refine Comes.attempt_bind (comes_id fun i uuid h => by rw [h]) fun drive w _ => ?_
  refine Comes.attempt_bind (comes_id fun i uuid h => by rw [h]) fun member w _ => ?_
  exact ⟨⟨⟨h.node, h.state, h.volume, h.master⟩, rfl, rfl, rfl⟩, rfl⟩

/-! ## Starting -/

/-- The replacement `rep` of the leg on `from` is begun, on the record that `p` read. -/
structure Begun (name «from» : String) (p : Replaceable) (w : AppState) (rep : Replacement) (w' : AppState) : Prop where
  record : w'.fed.volumes[name]? = some { p.vol with replacing := some rep }
  others : ∀ n : String, n ≠ name → w'.fed.volumes[n]? = w.fed.volumes[n]?
  nodes : w'.fed.nodes = w.fed.nodes
  orphans : w'.fed.orphans = w.fed.orphans
  «from» : rep.from = «from»
  leg : Wired p.target rep.leg

theorem comes_beginReplacement {«to» : Option String} {p : Replaceable}
    (hp : replaceable cfg name «from» «to» w.fed = .ok p) :
    (beginReplacement cfg name «from» «to»).Comes (Answered b) (fun p' w' => p' = p ∧ w'.fed = w.fed) w := by
  refine Comes.bind (comes_atomic (Q := fun x w' => x = .ok p ∧ w'.fed = w.fed) fun _ _ => ?_) fun x w' h => ?_
  · simp only [hp]
    refine ⟨trivial, ?_⟩
    split <;> rfl
  · exact comes_ofExcept h.1 ⟨rfl, h.2⟩

theorem comes_buildReplacement {«to» : Option String} {p : Replaceable}
    (hp : replaceable cfg name «from» «to» w.fed = .ok p) (harray : p.vol.arrayId.isSome) :
    (buildReplacement cfg me name «from» «to» reason).Comes (Answered b)
      (fun target w' => target = p.target ∧ ∃ rep, Begun name «from» p w rep w') w := by
  refine (comes_beginReplacement hp).bind fun p' w₁ h₁ => ?_
  obtain ⟨rfl, hfed₁⟩ := h₁
  rw [if_neg (by simpa [Option.isSome_iff_ne_none] using harray)]
  refine (Comes.calls remote_makeLeg comes_makeLeg).bind fun leg w₂ h₂ => ?_
  obtain ⟨hmade, hcalls₂⟩ := h₂
  refine (Comes.calls (remote_wireLeg (b := true)) (comes_wireLeg hmade)).bind fun r w₃ h₃ => ?_
  obtain ⟨⟨hwired, hr⟩, hcalls₃⟩ := h₃
  obtain ⟨leg', e⟩ := r
  obtain rfl : e = none := hr
  have hfed : w₃.fed = w.fed := hcalls₃.fed.trans (hcalls₂.fed.trans hfed₁)
  have hvol : w₃.fed.volumes[name]? = some p'.vol := by rw [hfed, (replaceable_ok hp).1]
  have hrecord : (recordReplacement me name «from» leg' reason).Comes (Answered b)
      (fun ok w' => ok = true ∧ ∃ rep, Begun name «from» p' w rep w') w₃ := by
    refine comes_atomic fun i _ => ?_
    simp only [hvol]
    refine ⟨trivial, { «from» := «from», leg := leg', reason := reason, startedAt := i.now }, ?_⟩
    refine ⟨KeyMap.get_insert_self .., fun n hn => ?_, ?_, ?_, rfl, hwired⟩
    · refine (KeyMap.get_insert_ne _ _ (Ne.symm hn)).trans ?_
      rw [← hfed]
      rfl
    · rw [← hfed]
      rfl
    · rw [← hfed]
      rfl
  refine hrecord.bind fun ok w₄ h₄ => ?_
  obtain ⟨rfl, h₄⟩ := h₄
  exact ⟨rfl, h₄⟩

theorem comes_startReplacement {«to» : Option String} {p : Replaceable}
    (hp : replaceable cfg name «from» «to» w.fed = .ok p) (harray : p.vol.arrayId.isSome)
    (hfree : w.replacing.contains name = false) :
    (startReplacement cfg me name «from» «to» reason).Comes (Answered b)
      (fun target w' => target = p.target ∧ .finish name ∈ w'.spawned ∧ ∃ rep, Begun name «from» p w rep w') w := by
  refine (comes_claim hfree).bind fun ok w₁ h₁ => ?_
  obtain ⟨rfl, hfed⟩ := h₁
  have hp₁ : replaceable cfg name «from» «to» w₁.fed = .ok p := by rw [hfed, hp]
  refine (comes_buildReplacement hp₁ harray).attempt_bind fun target w₂ h₂ => ?_
  obtain ⟨rfl, rep, hbegun⟩ := h₂
  refine (comes_modify (Q := fun _ w' => .finish name ∈ w'.spawned ∧ w'.fed = w₂.fed)
    ⟨List.mem_append_right _ (List.mem_singleton_self _), rfl⟩).bind fun _ w₃ h₃ => ?_
  obtain ⟨hspawned, hfed₃⟩ := h₃
  refine ⟨rfl, hspawned, rep, ?_⟩
  refine ⟨hfed₃ ▸ hbegun.record, fun n hn => ?_, ?_, ?_, hbegun.from, hbegun.leg⟩
  · rw [hfed₃, hbegun.others n hn, hfed]
  · rw [hfed₃, hbegun.nodes, hfed]
  · rw [hfed₃, hbegun.orphans, hfed]

/-! ## Finishing -/

/-- The new leg is in the old one's place, and what is left of that is gone or
an orphan to reap. -/
structure Restored (name : String) (p : Replaceable) (w : AppState) (rep : Replacement) (w' : AppState) : Prop where
  record : w'.fed.volumes[name]? = some (swapLeg rep p.vol)
  others : ∀ n : String, n ≠ name → w'.fed.volumes[n]? = w.fed.volumes[n]?
  old : ∀ l ∈ p.vol.legs.find? (·.node = rep.from), ∀ vid ∈ l.volumeId,
    NoneLeft rep.from vid w' ∨ ∃ o ∈ w'.fed.orphans, o.node = rep.from ∧ o.volumeId = vid
  orphans : w.fed.orphans ⊆ w'.fed.orphans

/-- The record is as it was, but for when to try again, and the new leg is gone. -/
structure Undone (name : String) (p : Replaceable) (w : AppState) (rep : Replacement) (w' : AppState) : Prop where
  record : ∃ t, w'.fed.volumes[name]? = some { p.vol with nextRelegAfter := some t }
  others : ∀ n : String, n ≠ name → w'.fed.volumes[n]? = w.fed.volumes[n]?
  leg : ∀ vid ∈ rep.leg.volumeId, NoneLeft rep.leg.node vid w'
  orphans : w'.fed.orphans = w.fed.orphans

theorem comes_undoLeg {leg : Leg} (hv : leg.volumeId.isSome) (hm : leg.masterNode.isSome) :
    (undoLeg me leg).Comes (Answered b) (fun _ w' => ∀ vid ∈ leg.volumeId, NoneLeft leg.node vid w') w := by
  obtain ⟨vid, hvid⟩ := Option.isSome_iff_exists.mp hv
  obtain ⟨master, hmaster⟩ := Option.isSome_iff_exists.mp hm
  have hundo : ∀ w, (Engine.undoVolume me leg.node vid).Comes (Answered b) (fun _ w' => NoneLeft leg.node vid w') w :=
    fun w => comes_callOr answering fun _ _ => ⟨(), rfl, noneLeft_destroyOn _ leg.node vid⟩
  unfold undoLeg
  rw [hvid, hmaster]
  refine (comes_actIf (Q := fun _ _ => True) trivial).bind fun _ w _ => ?_
  refine (comes_actIf (Q := fun _ _ => True) trivial).bind fun _ w _ => ?_
  refine (comes_actIf (Q := fun _ _ => True) trivial).bind fun _ w _ => ?_
  refine (hundo w).attempt_bind fun _ w' hgone => ?_
  exact fun v hv => Option.some.inj hv ▸ hgone

theorem comes_deleteOld {vid : String} :
    (deleteOld node vid).Comes (Answered b) (fun deleted w' => deleted = true → NoneLeft node vid w') w := by
  refine (comes_get (Q := fun _ _ => True) trivial).bind fun up w _ => ?_
  cases up with
  | false => exact fun h => nomatch h
  | true =>
    refine (comes_act answering).attempt_bind fun _ w _ => (comes_deleteVolume answering).attempt_bind fun _ w' hw _ => ?_
    exact hw ▸ noneLeft_destroyOn w node vid

theorem comes_retireOld {rep : Replacement} {v : DistVolume} (hv : w.fed.volumes[name]? = some v) :
    (retireOld name rep).Comes (Answered b) (fun orphan w' =>
      ∀ l ∈ v.legs.find? (·.node = rep.from), ∀ vid ∈ l.volumeId,
        NoneLeft rep.from vid w' ∨ ∃ o ∈ orphan, o.node = rep.from ∧ o.volumeId = vid) w := by
  refine (comes_get (Q := fun old _ => old = v.legs.find? (·.node = rep.from)) (by rw [hv]; rfl)).bind fun old w hold => ?_
  cases old with
  | none => exact fun l hl => by rw [← hold] at hl; cases hl
  | some old =>
    rw [← hold]
    refine (comes_actIf (Q := fun _ _ => True) trivial).bind fun _ w _ => ?_
    refine (comes_actIf (Q := fun _ _ => True) trivial).bind fun _ w _ => ?_
    cases hvid : old.volumeId with
    | none =>
      intro l hl vid hvid'
      rw [← Option.some.inj hl, hvid] at hvid'
      cases hvid'
    | some vid =>
      refine comes_deleteOld.bind fun deleted w hgone => ?_
      refine (comes_atomic (Q := fun _ w' => w' = w) fun _ _ => rfl).bind fun now w' hw => ?_
      subst hw
      intro l hl vid' hvid'
      rw [← Option.some.inj hl, hvid] at hvid'
      obtain rfl := Option.some.inj hvid'
      cases deleted with
      | true => exact .inl (hgone rfl)
      | false => exact .inr ⟨_, rfl, rfl, rfl⟩

/-- The head of the record read, a node there is. -/
theorem replaceable_head {«to» : Option String} {fed : FedState} {p : Replaceable}
    (h : replaceable cfg name «from» «to» fed = .ok p) : p.vol.head = some p.head ∧ fed.nodes.contains p.head = true := by
  obtain ⟨vol, hvol, h⟩ := check_bind.mp h
  split at h
  · cases h
  split at h
  · cases h
  split at h
  · cases h
  split at h
  · cases h
  · rename_i head hhead
    split at h
    · cases h
    · obtain ⟨target, -, h⟩ := check_bind.mp h
      obtain ⟨_, -, h⟩ := check_bind.mp h
      obtain ⟨_, hknown, h⟩ := check_bind.mp h
      obtain rfl := Except.ok.inj h
      refine ⟨hhead, ?_⟩
      unfold engineOf at hknown
      split at hknown
      · assumption
      · cases hknown

/-- What a started replacement left can be finished. -/
theorem finishReady_begun {«to» : Option String} {p : Replaceable} {w w' : AppState} {rep : Replacement}
    (hp : replaceable cfg name «from» «to» w.fed = .ok p) (harray : p.vol.arrayId.isSome)
    (h : Begun name «from» p w rep w') : finishReady name w'.fed = some rep := by
  obtain ⟨hhead, hknown⟩ := replaceable_head hp
  obtain ⟨-, -, htarget, -⟩ := replaceable_ok hp
  obtain ⟨array, harray⟩ := Option.isSome_iff_exists.mp harray
  have hnode : rep.leg.node = p.target := h.leg.node
  unfold finishReady
  rw [h.record]
  show (p.vol.head.bind fun head => p.vol.arrayId.bind fun _ =>
    if w'.fed.nodes.contains head ∧ w'.fed.nodes.contains rep.leg.node then some rep else none) = some rep
  rw [hhead, harray]
  exact if_pos ⟨by rw [h.nodes, hknown], by rw [h.nodes, hnode, htarget]⟩

theorem comes_giveUp {owner : Nat} {p : Replaceable} {rep : Replacement} {w₀ : AppState}
    (hfree : p.vol.replacing = none) (h : Begun name «from» p w₀ rep w) :
    (giveUp cfg owner name rep).Comes (Answered b) (fun _ => Undone name p w₀ rep) w := by
  refine (Comes.calls (remote_undoLeg (b := true)) (comes_undoLeg h.leg.volume h.leg.master)).bind fun _ w₁ h₁ => ?_
  obtain ⟨hgone, hcalls⟩ := h₁
  refine comes_atomic fun i _ => ?_
  have hedit : Head.Edited name (fun v => { v with replacing := none, nextRelegAfter := some (i.now + cfg.cooldown) }) w₁ _ :=
    Head.edited_modifyVolume
  have hrecord : w₁.fed.volumes[name]? = some { p.vol with replacing := some rep } := by rw [hcalls.fed, h.record]
  refine ⟨⟨i.now + cfg.cooldown, ?_⟩, fun n hn => ?_, hgone, ?_⟩
  · rw [hedit name, if_pos rfl, hrecord, ← hfree]
    rfl
  · rw [hedit n, if_neg hn, hcalls.fed, h.others n hn]
  · rw [← h.orphans, ← hcalls.fed]
    exact FedState.orphans_modify _ _ _

theorem comes_recordSwap {p : Replaceable} {rep : Replacement} {w₀ : AppState} {orphan : Option Orphan}
    (h : Begun name «from» p w₀ rep w) :
    (recordSwap name rep orphan).Comes (Answered b) (fun _ w' =>
      w'.fed.volumes[name]? = some (swapLeg rep p.vol) ∧
      (∀ n : String, n ≠ name → w'.fed.volumes[n]? = w₀.fed.volumes[n]?) ∧
      w'.engines = w.engines ∧ w'.fed.orphans = w₀.fed.orphans ++ orphan.toList) w := by
  refine comes_modify ?_
  simp only [h.record]
  have hedit : Head.Edited name (swapLeg rep) (w.setFed fun fed => { fed with orphans := fed.orphans ++ orphan.toList }) _ :=
    Head.edited_modifyVolume
  refine ⟨?_, fun n hn => ?_, rfl, ?_⟩
  · refine (hedit name).trans ?_
    rw [if_pos rfl]
    show w.fed.volumes[name]?.map (swapLeg rep) = _
    rw [h.record]
    rfl
  · refine (hedit n).trans ?_
    rw [if_neg hn]
    exact h.others n hn
  · rw [← h.orphans]
    exact FedState.orphans_modify _ _ _

/-- The old leg is retired by what `recordSwap` is told. -/
theorem comes_swap {p : Replaceable} {rep : Replacement} {w₀ : AppState} (h : Begun name «from» p w₀ rep w) :
    ((retireOld name rep).bind (recordSwap name rep)).Comes (Answered b) (fun _ => Restored name p w₀ rep) w := by
  refine (Comes.calls (remote_retireOld (b := true)) (comes_retireOld h.record)).bind fun orphan w₁ h₁ => ?_
  obtain ⟨hold, hcalls⟩ := h₁
  have h₁ : Begun name «from» p w₀ rep w₁ := by
    refine ⟨?_, ?_, ?_, ?_, h.from, h.leg⟩ <;> rw [hcalls.fed]
    · exact h.record
    · exact h.others
    · exact h.nodes
    · exact h.orphans
  refine (comes_recordSwap h₁).mono fun _ w' h' => ?_
  obtain ⟨hrecord, hothers, hengines, horphans⟩ := h'
  refine ⟨hrecord, hothers, fun l hl vid hvid => ?_, ?_⟩
  · rcases hold l hl vid hvid with hgone | ⟨o, ho, hnode⟩
    · exact .inl (by rwa [NoneLeft, hengines])
    · exact .inr ⟨o, by rw [horphans]; exact List.mem_append_right _ (Option.mem_toList.mpr ho), hnode⟩
  · rw [horphans]
    exact List.subset_append_left _ _

/-- The way the rebuild ends is the way the replacement does. -/
def Completed (rebuilt : Bool) (name : String) (p : Replaceable) (w : AppState) (rep : Replacement) (w' : AppState) : Prop :=
  if rebuilt then Restored name p w rep w' else Undone name p w rep w'

theorem comes_finishInner {«to» : Option String} {p : Replaceable} {rep : Replacement} {w₀ : AppState}
    (hp : replaceable cfg name «from» «to» w₀.fed = .ok p) (harray : p.vol.arrayId.isSome)
    (h : Begun name «from» p w₀ rep w) :
    (finishInner cfg me name).Comes (Answered b) (fun _ => Completed b name p w₀ rep) w := by
  obtain ⟨-, -, -, hfree⟩ := replaceable_ok hp
  refine (comes_get (Q := fun x w' => (∃ owner, x = some (rep, owner)) ∧ w' = w)
    ⟨⟨_, by rw [finishReady_begun hp harray h]; rfl⟩, rfl⟩).bind fun begun w₁ h₁ => ?_
  obtain ⟨⟨owner, rfl⟩, rfl⟩ := h₁
  refine (comes_atomic (Q := fun a w' => a = b ∧ w' = w₁) fun i hi => ⟨hi.active, rfl⟩).bind fun active w₂ h₂ => ?_
  obtain ⟨rfl, rfl⟩ := h₂
  cases active with
  | true => exact comes_swap h
  | false => exact comes_giveUp hfree h

theorem comes_finishReplacement {«to» : Option String} {p : Replaceable} {rep : Replacement} {w₀ : AppState}
    (hp : replaceable cfg name «from» «to» w₀.fed = .ok p) (harray : p.vol.arrayId.isSome)
    (h : Begun name «from» p w₀ rep w) (hspawned : .finish name ∈ w.spawned) :
    (finishReplacement cfg me name).Comes (Answered b)
      (fun _ w' => Completed b name p w₀ rep w' ∧ w'.replacing.contains name = false) w := by
  refine (comes_await (Q := fun _ => Begun name «from» p w₀ rep) (by simpa using hspawned) fun i _ => ?_).bind
    fun _ w₁ h₁ => ?_
  · exact ⟨h.record, h.others, h.nodes, h.orphans, h.from, h.leg⟩
  refine (comes_finishInner hp harray h₁).attempt_bind fun _ w₂ h₂ => comes_modify ⟨?_, ?_⟩
  · cases b with
    | true => exact ⟨h₂.record, h₂.others, h₂.old, h₂.orphans⟩
    | false => exact ⟨h₂.record, h₂.others, h₂.leg, h₂.orphans⟩
  · simp [AppState.release]

/-- A replacement that is answered: a start records a leg on the node it was
promised for, and the operation in the background puts that leg in the old
one's place, or takes it back where the rebuild does not end. -/
theorem replacement_completes {«to» : Option String} {p : Replaceable}
    (hp : replaceable cfg name «from» «to» w.fed = .ok p) (harray : p.vol.arrayId.isSome)
    (hfree : w.replacing.contains name = false) :
    (startReplacement cfg me name «from» «to» reason).Comes (Answered b) (fun target w' =>
      target = p.target ∧ ∃ rep, Begun name «from» p w rep w' ∧ ∀ me,
        (finishReplacement cfg me name).Comes (Answered b)
          (fun _ w'' => Completed b name p w rep w'' ∧ w''.replacing.contains name = false) w') w := by
  refine (comes_startReplacement hp harray hfree).mono fun target w' h => ?_
  obtain ⟨htarget, hspawned, rep, hbegun⟩ := h
  exact ⟨htarget, rep, hbegun, fun _ => comes_finishReplacement hp harray hbegun hspawned⟩

/-- There is always an id that no engine has given. -/
theorem exists_answered (w : AppState) : ∃ i, Answered b i w := by
  let made : String := .ofList (.replicate ((w.engines.map (·.id.length)).sum + 1) 'a')
  refine ⟨{ made := made, item := { (default : EngineItem) with id := some "" }, attach := some default, id := some "",
            active := b }, rfl, rfl, fun node => ?_, rfl, rfl, rfl⟩
  by_contra hg
  obtain ⟨e, he, -, hid⟩ := AppState.given_iff.mp (Bool.not_eq_false _ ▸ hg)
  have hle : e.id.length ≤ (w.engines.map (·.id.length)).sum := List.le_sum_of_mem (List.mem_map_of_mem he)
  have hlen : e.id.length = (w.engines.map (·.id.length)).sum + 1 := by
    rw [hid]
    simp [made]
  omega

theorem replacement_completes_small : ∃ w w',
    Ends (startReplacement smallPool 0 "v" "a" none "lost") { fed := Rebalance.fullNodes } (.ok "c") w ∧
    Ends (finishReplacement smallPool 0 "v") w (.ok ()) w' ∧
    (w'.fed.volumes["v"]?.map fun v => v.legs.map (·.node)) = some ["h", "c"] := by
  have hok : (replaceable smallPool "v" "a" none Rebalance.fullNodes).toOption.any
      (fun p => p.target = "c" ∧ p.vol.arrayId.isSome ∧ p.vol.legs.map (·.node) = ["h", "a"]) = true := by
    decide +kernel
  cases hp : replaceable smallPool "v" "a" none Rebalance.fullNodes with
  | error e =>
    rw [hp] at hok
    cases hok
  | ok p =>
    rw [hp] at hok
    obtain ⟨htarget, harray, hlegs⟩ := of_decide_eq_true hok
    have hcomes : (startReplacement smallPool 0 "v" "a" none "lost").Comes (Answered true) _
        { fed := Rebalance.fullNodes } := replacement_completes hp harray rfl
    obtain ⟨target, w, hstart, rfl, rep, hbegun, hfinish⟩ := hcomes.ends exists_answered
    obtain ⟨_, w', hend, hrestored, -⟩ := (hfinish 0).ends exists_answered
    refine ⟨w, w', htarget ▸ hstart, hend, ?_⟩
    have hnode : rep.leg.node = "c" := hbegun.leg.node.trans htarget
    obtain ⟨h, _, hl, hh, hrest⟩ := List.map_eq_cons_iff.mp hlegs
    obtain ⟨a, _, rfl, ha, hnil⟩ := List.map_eq_cons_iff.mp hrest
    rw [hrestored.record]
    show some ((putLeg rep.from { rep.leg with message := none } p.vol.legs).map (·.node)) = _
    rw [hbegun.from, hl, List.map_eq_nil_iff.mp hnil]
    simp [putLeg, hh, ha, hnode]

end StormStorage.Orchestrate
