import StormStorage.Proof.Noted
import StormStorage.Proof.Serves
import StormStorage.Proof.Steps.Heads

/-!
# The drives of a former head

A promote lists its former head with the drive URIs of the legs
(`Head.staleHead`), and the cleaning up closes those (`Head.cleanUp`). The URIs
are read off the legs after they were opened on the new head: they are the ones
that the former head has open only where the engines serve the legs under them
again (`Head.promote_staleHead_iff`).

* `Head.openPicked_uris`: what opening the legs makes of their URIs;
* `Head.among_cleanUp`: what the cleaning up closes.
-/

namespace StormStorage

open Await Task Orchestrate

/-- Where a head opens the leg's drive. -/
def Leg.openUri (l : Leg) : Option String := l.export.map (·.driveUri)

/-- Where it opens the legs' drives. -/
def DistVolume.driveUris (v : DistVolume) : List String := v.legs.filterMap Leg.openUri

/-! ## What a stretch of a program shows -/

/-- What the attach of a leg was answered, if the step was one. -/
def attachAnswer (m : Moment Reply AppState) : Option AttachedLeg :=
  match noted m, m.reply.wire with
  | [.attached _ _ host], .answered => m.reply.attach.map fun a => { a with hostNqn := some host }
  | _, _ => none

/-- The same, of all its attaches in order. -/
def attachAnswers (tr : List (Moment Reply AppState)) : List AttachedLeg := tr.filterMap attachAnswer

/-- A drive that the step was to close, and whether it is closed. -/
def closing (m : Moment Reply AppState) : Option (String × String × Bool) :=
  match noted m with
  | [.closing node uri closed] => some (node, uri, closed)
  | _ => none

/-- The drives that were to be closed, in order. -/
def closings (tr : List (Moment Reply AppState)) : List (String × String × Bool) := tr.filterMap closing

/-- The drives that a node's engine closed. -/
def closedOn (node : String) (tr : List (Moment Reply AppState)) : List String :=
  ((closings tr).filter fun c => c.1 = node ∧ c.2.2 = true).map (·.2.1)

section

variable {m : Moment Reply AppState} {tr tr' : List (Moment Reply AppState)}

@[simp] theorem attachAnswers_append : attachAnswers (tr ++ tr') = attachAnswers tr ++ attachAnswers tr' :=
  List.filterMap_append

@[simp] theorem closings_append : closings (tr ++ tr') = closings tr ++ closings tr' := List.filterMap_append

theorem attachAnswers_none (h : ∀ m ∈ tr, m.after.log = m.before.log) : attachAnswers tr = [] := by
  refine List.filterMap_eq_nil_iff.mpr fun m hm => ?_
  rw [attachAnswer, noted_same (h m hm)]

theorem closings_none (h : ∀ m ∈ tr, m.after.log = m.before.log) : closings tr = [] := by
  refine List.filterMap_eq_nil_iff.mpr fun m hm => ?_
  rw [closing, noted_same (h m hm)]

end

/-! ## Steps that note nothing, steps that list no former head -/

/-- Nothing is noted. -/
abbrev Unnoted (w w' : AppState) : Prop := w'.log = w.log

/-- A former head is listed. -/
def Lists (w w' : AppState) : Prop := ∃ s, w'.fed.staleHeads = w.fed.staleHeads ++ [s]

/-- The record is revised. -/
def Revises (w w' : AppState) : Prop := w'.fed.revision = w.fed.revision + 1

section

variable {α : Type} {w w' : AppState}

theorem not_lists_of_eq (h : w'.fed.staleHeads = w.fed.staleHeads) : ¬ Lists w w' := by
  rintro ⟨s, hs⟩
  exact absurd (h ▸ hs) (by simp)

theorem unlisting_calls {b : Bool} {t : Async α} (h : t.Only (Calls b)) : t.Only fun w w' => ¬ Lists w w' :=
  h.mono fun _ _ h => not_lists_of_eq (by rw [h.fed])

theorem unlisting_serves {t : Async α} (h : t.Only Serves) : t.Only fun w w' => ¬ Lists w w' :=
  h.mono fun _ _ h => not_lists_of_eq (by rw [h.eq])

theorem unrevising_calls {b : Bool} {t : Async α} (h : t.Only (Calls b)) : t.Only fun w w' => ¬ Revises w w' := by
  refine h.mono fun w w' h he => ?_
  rw [Revises, h.fed] at he
  omega

theorem unnoted_callOr {eff : Reply → AppState → AppState} {refused : AppState → AppState}
    {answer : Reply → AppState → Except Fault α} (he : ∀ i w, (eff i w).log = w.log) (hr : ∀ w, (refused w).log = w.log) :
    (callOr eff refused answer).Only Unnoted := by
  refine fun i w => ⟨?_, ?_⟩
  · show (i.wire.effect _ _).log = _
    unfold Wire.effect
    split
    · exact hr w
    · exact he i w
    · exact he i w
  · dsimp only
    split
    · exact only_ofExcept _
    · trivial
    · trivial

theorem unnoted_inquire (answer : Reply → Except Fault α) : (inquire answer).Only Unnoted :=
  unnoted_callOr (fun _ _ => rfl) fun _ => rfl

theorem heard_log (w : AppState) (node : String) (i : Reply) : (w.heard node i).log = w.log := by
  unfold AppState.heard
  split <;> rfl

end

/-! ## Calls to their end -/

section

variable {α : Type} {tr : List (Moment Reply AppState)} {a : α}

theorem among_withContext {what : String} {t : Async α} (h : Among (withContext what t) tr (.ret a)) :
    Among t tr (.ret a) := by
  obtain ⟨tr₁, tr₂, x, rfl, h₁, h₂⟩ := Among.ret_bind h
  cases x with
  | ok b =>
    obtain ⟨rfl, he⟩ := among_ret.mp h₂
    obtain rfl := Task.ret.inj he
    rw [List.append_nil]
    exact h₁.attempt_ok
  | error e => exact nomatch (among_fail.mp h₂).2

/-- A call that is answered. -/
theorem among_call {eff : Reply → AppState → AppState} {answer : Reply → AppState → Except Fault α}
    (h : Among (call eff answer) tr (.ret a)) :
    ∃ m, tr = [m] ∧ m.reply.wire = .answered ∧ m.after = eff m.reply m.before ∧ answer m.reply m.before = .ok a := by
  match tr, h with
  | [], h => exact nomatch h
  | m :: tr, h =>
    obtain ⟨hafter, h⟩ := among_step h
    cases hw : m.reply.wire with
    | answered =>
      simp only [hw] at h
      obtain ⟨ha, rfl⟩ := h.ofExcept
      exact ⟨m, rfl, hw, by rw [hafter, hw]; rfl, ha⟩
    | refused status why =>
      simp only [hw] at h
      exact nomatch (among_fail.mp h).2
    | lost why =>
      simp only [hw] at h
      exact nomatch (among_fail.mp h).2

theorem among_attachLeg {node id host : String} {a : AttachedLeg}
    (h : Among (Engine.attachLeg node id host) tr (.ret a)) : attachAnswers tr = [a] := by
  obtain ⟨m, rfl, hw, hafter, ha⟩ := among_call h
  have he : attachAnswer m = some a := by
    rw [attachAnswer, noted_note (congrArg AppState.log hafter), hw]
    unfold Engine.attached at ha
    split at ha
    · rename_i hm
      simp only [hm, Option.map_some, Except.ok.inj ha]
    · cases ha
  simp [attachAnswers, he]

end

namespace Head

variable {cfg : Config} {me : Nat} {name target : String} {up : List String} {pick : Leg → Bool}
  {tr tr' : List (Moment Reply AppState)}

/-! ## Opening the legs -/

/-- A leg is opened under the URI that it was answered. -/
theorem among_openLeg {leg leg' : Leg} (h : Among (openLeg cfg target up leg) tr (.ret leg')) :
    ∃ a, attachAnswers tr = [a] ∧ leg'.export = some a := by
  unfold openLeg at h
  split at h
  · exact nomatch (among_fail.mp h).2
  · split at h
    · exact nomatch (among_fail.mp h).2
    · obtain ⟨tr₁, tr₂, a, rfl, h₁, h₂⟩ := Among.ret_bind h
      obtain ⟨tr₃, tr₄, uuid, rfl, h₃, h₄⟩ := Among.ret_bind h₂
      obtain ⟨rfl, he⟩ := among_ret.mp h₄
      have hquiet := h₃.only (only_withContext (unnoted_inquire _))
      refine ⟨a, ?_, by rw [Task.ret.inj he]⟩
      rw [List.append_nil, attachAnswers_append, among_attachLeg (among_withContext h₁), attachAnswers_none hquiet]
      rfl

/-- The legs are under the URIs that they had only where the engines answer
these. -/
theorem openPicked_uris {legs legs' : List Leg} (h : Among (openPicked cfg target up pick legs) tr (.ret legs')) :
    (legs'.filterMap Leg.openUri = legs.filterMap Leg.openUri ↔
      List.Forall₂ (fun l a => l.openUri = some a.driveUri) (legs.filter pick) (attachAnswers tr)) ∧
    (legs.filterMap Leg.openUri).length ≤ (legs'.filterMap Leg.openUri).length := by
  induction legs generalizing tr legs' with
  | nil =>
    obtain ⟨rfl, he⟩ := among_ret.mp h
    obtain rfl := Task.ret.inj he
    exact ⟨iff_of_true rfl .nil, Nat.le_refl _⟩
  | cons leg legs ih =>
    unfold openPicked at h
    split at h
    · rename_i hpick
      obtain ⟨tr₁, tr₂, leg₁, rfl, h₁, h₂⟩ := Among.ret_bind h
      obtain ⟨tr₃, tr₄, rest, rfl, h₃, h₄⟩ := Among.ret_bind h₂
      obtain ⟨rfl, he⟩ := among_ret.mp h₄
      obtain rfl := Task.ret.inj he
      obtain ⟨a, ha, hex⟩ := among_openLeg h₁
      obtain ⟨hiff, hle⟩ := ih h₃
      rw [List.append_nil, attachAnswers_append, ha, List.filter_cons_of_pos hpick, List.singleton_append,
        List.forall₂_cons, ← hiff, List.filterMap_cons_some (show leg₁.openUri = some a.driveUri by rw [Leg.openUri, hex]; rfl)]
      cases hu : leg.openUri with
      | none =>
        rw [List.filterMap_cons_none hu]
        refine ⟨iff_of_false (fun he => ?_) (fun he => by cases he.1), ?_⟩
        · have := congrArg List.length he
          simp only [List.length_cons] at this
          omega
        · exact Nat.le_succ_of_le hle
      | some u =>
        rw [List.filterMap_cons_some hu, List.cons.injEq, Option.some.injEq, eq_comm (a := u)]
        exact ⟨Iff.rfl, Nat.succ_le_succ hle⟩
    · rename_i hpick
      obtain ⟨tr₃, tr₄, rest, rfl, h₃, h₄⟩ := Among.ret_bind h
      obtain ⟨rfl, he⟩ := among_ret.mp h₄
      obtain rfl := Task.ret.inj he
      obtain ⟨hiff, hle⟩ := ih h₃
      rw [List.append_nil, List.filter_cons_of_neg hpick, ← hiff, List.filterMap_cons, List.filterMap_cons]
      split
      · exact ⟨Iff.rfl, hle⟩
      · exact ⟨by rw [List.cons.injEq, and_iff_right rfl], Nat.succ_le_succ hle⟩

theorem renumber_export (r : ArrayReading) (leg : Leg) : (renumber pick r leg).export = leg.export := by
  unfold renumber
  split
  · split <;> rfl
  · rfl

theorem unnoted_getArray : Engine.getArray.Only Unnoted := unnoted_inquire _

/-- An array that was put together from the legs that `pick` took. -/
theorem among_assembleOn {vol vol' : DistVolume} {served : Option String} {read : Option EngineArray}
    (h : Among (assembleOn cfg target up pick vol) tr (.ret (vol', served, read))) :
    (vol'.driveUris = vol.driveUris ↔
      List.Forall₂ (fun l a => l.openUri = some a.driveUri) (vol.legs.filter pick) (attachAnswers tr)) ∧
    ∃ legs, vol' = { vol with legs := legs } := by
  unfold assembleOn at h
  split at h
  · exact nomatch (among_fail.mp h).2
  · rename_i array _
    obtain ⟨tr₁, tr₂, legs, rfl, h₁, h₂⟩ := Among.ret_bind h
    obtain ⟨tr₃, tr₄, made, rfl, h₃, h₄⟩ := Among.ret_bind h₂
    have hq₃ := h₃.only (only_withContext (unnoted_inquire _))
    dsimp only at h₄
    split at h₄
    · exact nomatch (among_fail.mp h₄).2
    · obtain ⟨tr₅, tr₆, ⟨legs', read'⟩, rfl, h₅, h₆⟩ := Among.ret_bind h₄
      obtain ⟨tr₇, tr₈, x, rfl, h₇, h₈⟩ := Among.ret_bind h₆
      have hq₇ := h₇.only (unnoted_callOr (fun i w => heard_log w _ i) fun _ => rfl : Only Unnoted _).attempt
      obtain ⟨tr₉, tr₁₀, y, rfl, h₉, h₁₀⟩ := Among.ret_bind h₅
      have hq₉ := h₉.only unnoted_getArray.attempt
      have hlegs : tr₁₀ = [] ∧ legs'.filterMap Leg.openUri = legs.filterMap Leg.openUri := by
        cases y with
        | ok a =>
          obtain ⟨rfl, he⟩ := among_ret.mp h₁₀
          obtain ⟨rfl, -⟩ := Prod.mk.inj (Task.ret.inj he)
          refine ⟨rfl, ?_⟩
          rw [List.filterMap_map]
          exact List.filterMap_congr fun l _ => by rw [Function.comp_apply, Leg.openUri, renumber_export, Leg.openUri]
        | error e =>
          obtain ⟨rfl, he⟩ := among_ret.mp h₁₀
          obtain ⟨rfl, -⟩ := Prod.mk.inj (Task.ret.inj he)
          exact ⟨rfl, rfl⟩
      have hvol : tr₈ = [] ∧ vol' = { vol with legs := legs' } := by
        cases x with
        | ok vs =>
          obtain ⟨rfl, he⟩ := among_ret.mp h₈
          exact ⟨rfl, (Prod.mk.inj (Task.ret.inj he)).1⟩
        | error e =>
          obtain ⟨rfl, he⟩ := among_ret.mp h₈
          exact ⟨rfl, (Prod.mk.inj (Task.ret.inj he)).1⟩
      obtain ⟨rfl, he⟩ := hlegs
      obtain ⟨rfl, rfl⟩ := hvol
      refine ⟨?_, legs', rfl⟩
      simp only [attachAnswers_append, attachAnswers_none hq₃, attachAnswers_none hq₇, attachAnswers_none hq₉,
        List.append_nil]
      show legs'.filterMap _ = vol.legs.filterMap _ ↔ _
      rw [he]
      exact (openPicked_uris h₁).1

/-! ## Cleaning up -/

theorem among_deleteDrive {node uri : String} {x : Except Fault Unit}
    (h : Among (Engine.deleteDrive node uri).attempt tr (.ret x)) : ∃ b, closings tr = [(node, uri, b)] := by
  match tr, h with
  | [], h => exact nomatch h
  | m :: tr, h =>
    obtain ⟨hafter, h⟩ := among_step h
    have htr : tr = [] := by
      dsimp only at h
      split at h
      · exact (among_ret.mp h).1
      · split at h <;> exact (among_ret.mp h).1
      · exact (among_ret.mp h).1
    subst htr
    have hc : closing m = some (node, uri, m.reply.wire.gone) := by
      rw [closing, noted_note (congrArg AppState.log hafter)]
    exact ⟨_, List.filterMap_cons_some hc⟩

/-- Each drive is asked to be closed once, in order. -/
theorem among_closeEach {node : String} {uris : List String} (h : Among (Task.forEach uris fun uri => do
      let _ ← (Engine.deleteDrive node uri).attempt : Async Unit) tr (.ret ())) :
    (closings tr).map (fun c => (c.1, c.2.1)) = uris.map fun uri => (node, uri) := by
  induction uris generalizing tr with
  | nil =>
    obtain ⟨rfl, -⟩ := among_ret.mp h
    rfl
  | cons uri uris ih =>
    obtain ⟨tr₁, tr₂, _, rfl, h₁, h₂⟩ := Among.ret_bind h
    obtain ⟨tr₃, tr₄, x, rfl, h₃, h₄⟩ := Among.ret_bind h₁
    obtain ⟨rfl, -⟩ := among_ret.mp h₄
    obtain ⟨b, hb⟩ := among_deleteDrive h₃
    rw [List.append_nil, closings_append, hb, List.singleton_append, List.map_cons, ih h₂, List.map_cons]

theorem unnoted_leftoverOn {s : StaleHead} : (leftoverOn s).Only Unnoted := by
  have hlist : ∀ node : String, (Engine.listEngineVolumes node).Only Unnoted :=
    fun node => unnoted_callOr (fun i w => heard_log w node i) fun _ => rfl
  unfold leftoverOn
  split
  · trivial
  · exact (unnoted_inquire _).bind fun _ => (hlist _).bind fun _ => trivial

/-- The cleaning up of a former head that comes to its end asks it to close the
drives listed, each once. -/
theorem among_cleanUp {s : StaleHead} {m : Moment Reply AppState} (h : Among (cleanUp s) (tr ++ [m]) (.ret ()))
    (hm : Revises m.before m.after) :
    (closings tr).map (fun c => (c.1, c.2.1)) = s.driveUris.map fun uri => (s.node, uri) := by
  obtain ⟨tr₁, tr₂, arrays, rfl, h₁, h⟩ := h.later hm (unrevising_calls (b := true) (remote_inquire _))
  have hq₁ := h₁.only (unnoted_inquire _)
  split at h
  · exact absurd (among_ret.mp h).1 (by simp)
  · obtain ⟨tr₃, tr₄, leftover, rfl, h₃, h⟩ := h.later hm (unrevising_calls (b := true) remote_leftoverOn)
    obtain ⟨tr₅, tr₆, _, rfl, h₅, h⟩ := h.later hm (unrevising_calls (b := true)
      (only_forEach (fun _ => only_ignore Engine.remote_deleteDrive) _))
    obtain ⟨tr₇, tr₈, _, rfl, h₇, h⟩ := h.later hm (unrevising_calls (b := true)
      (only_forEach (fun _ => Engine.remote_deleteVolume) _))
    have hq₃ := h₃.only unnoted_leftoverOn
    have hq₇ := h₇.only (only_forEach (f := Engine.deleteVolume s.node)
      (fun _ => unnoted_callOr (fun _ _ => rfl) fun _ => rfl) _)
    obtain rfl : tr₈ = [] := by
      match tr₈, h with
      | [], _ => rfl
      | _ :: _, h => exact absurd (among_ret.mp (among_step h).2).1 (by simp)
    simp only [closings_append, closings_none hq₁, closings_none hq₃, closings_none hq₇, List.nil_append,
      List.append_nil]
    exact among_closeEach h₅

/-- The drives that were to be closed are all closed. -/
theorem closedOn_eq_iff {node : String} {uris : List String}
    (h : (closings tr).map (fun c => (c.1, c.2.1)) = uris.map fun uri => (node, uri)) :
    closedOn node tr = uris ↔ ∀ c ∈ closings tr, c.2.2 = true := by
  have hnode : ∀ c ∈ closings tr, c.1 = node := by
    intro c hc
    obtain ⟨uri, -, he⟩ := List.mem_map.mp (h ▸ List.mem_map_of_mem hc)
    exact (congrArg Prod.fst he).symm
  have huris : (closings tr).map (·.2.1) = uris := by
    have := congrArg (List.map Prod.snd) h
    simpa [List.map_map, Function.comp_def] using this
  constructor
  · intro he c hc
    have hlen : ((closings tr).filter fun c => c.1 = node ∧ c.2.2 = true).length = (closings tr).length := by
      have := congrArg List.length (he.trans huris.symm)
      simpa [closedOn] using this
    have := List.filter_eq_self.mp (List.filter_sublist.eq_of_length hlen) c hc
    exact (of_decide_eq_true this).2
  · intro hall
    rw [closedOn, List.filter_eq_self.mpr fun c hc => decide_eq_true ⟨hnode c hc, hall c hc⟩, huris]

/-! ## Promoting -/

theorem unlisting_servePromoted {served : Option String} :
    (servePromoted me name target served).Only fun w w' => ¬ Lists w w' := by
  unfold servePromoted
  split
  · refine (unlisting_serves serves_publish).attempt.bind fun _ => ?_
    refine Only.bind (unlisting_calls (b := true) (remote_get _)) fun names => ?_
    exact only_forEach (fun _ => (unlisting_serves serves_publish).attempt.bind fun _ => only_ret _) _
  · refine only_atomic fun _ w => not_lists_of_eq ?_
    show (w.fed.modifyVolume name _).staleHeads = _
    unfold FedState.modifyVolume
    split <;> rfl

theorem only_takeCopy {α : Type} {C : AppState → AppState → Prop} {check : FedState → Except Fault α}
    {vol : α → DistVolume} {onto : α → Option String}
    (h : ∀ w a, C w { w.noteHeading name (onto a) with copies := w.copies.insert name (vol a) }) (hw : ∀ w, C w w) :
    (takeCopy name check vol onto).Only C := by
  refine Only.bind (only_atomic fun _ w => ?_) fun x => only_ofExcept x
  split
  · exact h w _
  · exact hw w

theorem among_takeCopy {α : Type} {check : FedState → Except Fault α} {vol : α → DistVolume}
    {onto : α → Option String} {a : α} (h : Among (takeCopy name check vol onto) tr (.ret a)) :
    ∃ m, tr = [m] ∧ check m.before.fed = .ok a := by
  obtain ⟨tr₁, tr₂, x, rfl, h₁, h₂⟩ := Among.ret_bind h
  obtain ⟨m, rfl, -, rfl⟩ := among_atomic h₁
  obtain ⟨hx, rfl⟩ := h₂.ofExcept
  refine ⟨m, rfl, ?_⟩
  split at hx
  · rename_i heq
    rw [heq, Except.ok.inj hx]
  · cases hx

theorem staleHeads_writeBack (w : AppState) (v : DistVolume) :
    (w.writeBack name v).fed.staleHeads = w.fed.staleHeads := by
  unfold AppState.writeBack
  split <;> rfl

theorem unlisting_store {presented : Nat} {vol : DistVolume} :
    (store presented vol).Only fun w w' => ¬ Lists w w' :=
  only_atomic fun _ w => not_lists_of_eq (staleHeads_writeBack (w.note (.cleared vol.name presented)) vol)

/-- A promote lists a former head where it has put the array together on the
new one. -/
theorem among_promoteClaimed {epoch : Nat} {r m : Moment Reply AppState} {t' : Async Unit} {s : StaleHead}
    (h : Among (promoteClaimed cfg me name target epoch) (r :: (tr ++ [m])) t')
    (hs : m.after.fed.staleHeads = m.before.fed.staleHeads ++ [s]) :
    ∃ p array vol served read, promotable name target epoch r.before.fed = .ok p ∧ p.oldHead ≠ some target ∧
      Among (assembleOn cfg target p.up (fun l => l.state = .created ∧ l.node ∈ p.up) p.vol) tr
        (.ret (vol, served, read)) ∧
      [s] = staleHead vol (p.oldHead.getD "") array m.reply.now := by
  have hm : Lists m.before m.after := ⟨s, hs⟩
  rw [← List.cons_append] at h
  obtain ⟨tr₁, tr₂, p, he, h₁, h⟩ := h.later hm (only_takeCopy (fun _ _ => not_lists_of_eq rfl) fun _ => not_lists_of_eq rfl)
  obtain ⟨r', rfl, hp⟩ := among_takeCopy h₁
  obtain ⟨rfl, rfl⟩ := List.cons.inj he
  have hmem : m ∈ tr ++ [m] := List.mem_append_right _ (List.mem_singleton.mpr rfl)
  split at h
  · exact absurd (among_fail.mp h).1 (by simp)
  · rename_i array _
    split at h
    · refine absurd hm (h.only (C := fun w w' => ¬ Lists w w') ?_ m hmem)
      refine Only.bind (unlisting_calls (b := true) (remote_reattachLegs _)) fun legs => ?_
      exact unlisting_store
    · rename_i hne
      split at h
      · exact absurd (among_fail.mp h).1 (by simp)
      · obtain ⟨tr₃, tr₄, ⟨vol, served, read⟩, rfl, h₃, h⟩ := h.later hm (unlisting_calls (b := true) remote_assembleOn)
        obtain ⟨rfl, hafter⟩ := h.inside hm fun _ => unlisting_servePromoted
        rw [List.append_nil]
        refine ⟨p, array, vol, served, read, hp, hne, h₃, ?_⟩
        rw [hafter, staleHeads_writeBack] at hs
        exact (List.append_cancel_left hs).symm

/-- A former head that answers every call is cleaned up. -/
theorem cleanUp_answered (s : StaleHead) (hs : s.servedV1 = none) : ∃ tr m, Among (cleanUp s) (tr ++ [m]) (.ret ()) ∧
    m.after = m.before.revise (dropStale s) ∧ ∀ d ∈ closings tr, d.2.2 = true := by
  have hclose : ∀ uris : List String, ∃ tr, Among (Task.forEach uris fun uri => do
      let _ ← (Engine.deleteDrive s.node uri).attempt : Async Unit) tr (.ret ()) ∧ ∀ d ∈ closings tr, d.2.2 = true := by
    intro uris
    induction uris with
    | nil => exact ⟨[], .here _, fun d hd => nomatch hd⟩
    | cons uri uris ih =>
      obtain ⟨tr, h, hall⟩ := ih
      let m : Moment Reply AppState := ⟨{}, {}, AppState.note {} (.closing s.node uri true)⟩
      have hm : Among (do
          let _ ← (Engine.deleteDrive s.node uri).attempt : Async Unit) [m] (.ret ()) := by
        change Among (.step _ _ _) _ _
        exact .step (r := fun _ => true) ({} : Reply) ({} : AppState) rfl (.here _)
      refine ⟨[m] ++ tr, hm.bind h, fun d hd => ?_⟩
      rw [closings_append] at hd
      rcases List.mem_append.mp hd with hd | hd
      · obtain rfl := List.mem_singleton.mp (show d ∈ [(s.node, uri, true)] from hd)
        rfl
      · exact hall d hd
  obtain ⟨tr, h, hall⟩ := hclose s.driveUris
  have hleft : Among (leftoverOn s) [] (.ret none) := by
    unfold leftoverOn
    rw [hs]
    exact .here _
  refine ⟨⟨{}, {}, {}⟩ :: tr, ⟨{}, {}, AppState.revise {} (dropStale s)⟩, ?_, rfl, hall⟩
  change Among (.step _ _ _) _ _
  refine .step (r := fun _ => true) ({} : Reply) ({} : AppState) rfl ?_
  exact hleft.bind (h.bind (.step (r := fun _ => true) ({} : Reply) ({} : AppState) rfl (.here _)))

/-- A leg whose drive a head has open. -/
def openLegOf (node host : String) : Leg :=
  { rackLeg node with «export» := some { nqn := node, traddr := "t", trsvcid := 4420, nsid := 1, hostNqn := some host } }

/-- A volume is fenced, its head a gone; leg b was served to this host. -/
def leftBehind (host : String) : AppState :=
  { fed := {
      nodes := nodesOf [("a", false), ("b", true)]
      volumes := (∅ : KeyMap DistVolume).insert "v"
        { rackVolume with legs := [openLegOf "a" "nqn.a", openLegOf "b" host], epoch := 2, fenced := true } } }

/-- The engine of b serves its leg. -/
def legReply : Reply := { arrayReply with attach := some { nqn := "b", traddr := "t", trsvcid := 4420, nsid := 1 } }

/-- The promote onto b, as far as it lists the former head. -/
def leaveA (host : String) : List (Moment Reply AppState) :=
  (promote plainConfig 0 "v" "b" 2).moments (List.replicate 8 legReply) (leftBehind host)

/-- The entry that it makes. -/
def formerA : StaleHead where
  node := "a"
  arrayId := "arr"
  driveUris := ["nvme-tcp://t:4420/a?nsid=1&hostnqn=nqn.a", "nvme-tcp://t:4420/b?nsid=1&hostnqn=nqn.b"]
  ofVolume := "v"
  epoch := 2
  since := 0
  servedV1 := none

/-- The run lists the former head, and read these drives. -/
def leavesWith (host : String) (uris : List String) : Prop :=
  ((leaveA host).getLast?.map fun m => (m.before.fed.staleHeads, m.after.fed.staleHeads)) = some ([], [formerA]) ∧
    ((leaveA host)[1]?.bind fun r => (promotable "v" "b" 2 r.before.fed).toOption.map (·.vol.driveUris)) = some uris ∧
    (leaveA host).length = 8

theorem leaveA_listed {host : String} {uris : List String} (h : leavesWith host uris) :
    ∃ c r tr m t' p, Among (promote plainConfig 0 "v" "b" 2) (c :: r :: (tr ++ [m])) t' ∧
      leaveA host = c :: r :: (tr ++ [m]) ∧
      m.after.fed.staleHeads = m.before.fed.staleHeads ++ [formerA] ∧
      promotable "v" "b" 2 r.before.fed = .ok p ∧ p.vol.driveUris = uris := by
  obtain ⟨hlast, hread, hlen⟩ := h
  obtain ⟨c, r, tr, m, he⟩ : ∃ c r tr m, leaveA host = c :: r :: (tr ++ [m]) := by
    match hl : leaveA host, hlen with
    | c :: r :: x :: xs, _ =>
      exact ⟨c, r, (x :: xs).dropLast, (x :: xs).getLast (List.cons_ne_nil _ _), by
        rw [List.dropLast_append_getLast]⟩
  have hgo := among_moments (promote plainConfig 0 "v" "b" 2) (List.replicate 8 legReply) (leftBehind host)
  rw [show moments _ _ _ = _ from he] at hgo
  rw [he] at hlast hread
  have hm : m.before.fed.staleHeads = [] ∧ m.after.fed.staleHeads = [formerA] := by
    rw [← List.cons_append, ← List.cons_append, List.getLast?_concat] at hlast
    simpa using hlast
  have hs : m.after.fed.staleHeads = m.before.fed.staleHeads ++ [formerA] := by rw [hm.1, hm.2]; rfl
  have hr : (promotable "v" "b" 2 r.before.fed).toOption.map (·.vol.driveUris) = some uris := by simpa using hread
  cases hp : promotable "v" "b" 2 r.before.fed with
  | error e => simp [hp, Except.toOption] at hr
  | ok p =>
    rw [hp] at hr
    exact ⟨c, r, tr, m, _, p, hgo, he, hs, hp, Option.some.inj hr⟩

end Head

end StormStorage
