import StormStorage.Proof.Steps.Walk

/-!
# Every operation's program

The programs that hold a volume's claim: assembling, promoting, reassembling,
replacing a leg and ending that, under the claim (`walk_assemble` to
`walk_finishReplacement`); then every operation's (`walk_program`). Each step of
every run does what `Does` says (`does_step`).
-/

namespace StormStorage

open Await Task Orchestrate

section

variable {α : Type} {cfg : Config} {w w' : AppState} {me t : Nat} {name : String} {c : DistVolume}

theorem noted_writeBack {e : Event} {es₀ : List Event} (w₀ : AppState) (v : DistVolume)
    (h : w₀.log = w.log ++ e :: es₀) : ∃ es, (w₀.writeBack name v).log = w.log ++ e :: es := by
  obtain ⟨es, hes⟩ := writeBack_eq w₀ name v
  refine ⟨es₀ ++ es, ?_⟩
  rw [hes]
  exact (congrArg (· ++ es) h).trans (List.append_assoc _ _ _)

theorem Own.refl (w : AppState) : Own name w w :=
  ⟨rfl, rfl, rfl, id, fun n _ => .of_seen rfl n, (show Aloof 0 w w from .refl w).does⟩

/-! ## Assembling -/

theorem own_assembled {head : String} {onto : Option String} {v : DistVolume} (until_ : Option SystemTime)
    (hc : Copied name c onto w) (honto : onto = some head) (hname : c.name = name) (hleg : ∃ l ∈ c.legs, l.node = head)
    (hcreated : ∀ l ∈ c.legs, l.state = .created) (hv : AssembledFrom head c v) (stopped : Bool) :
    Own name w (if stopped then (w.writeBack name { v with nextAssembleAfter := until_ }) else
      (w.writeBack name { v with nextAssembleAfter := until_ }).revise id) := by
  have hvname : v.name = name := by
    obtain ⟨legs, -, rfl | ⟨array, rfl⟩⟩ := hv <;> exact hname
  have hstep : ∀ w', w'.seen = (w.writeBack name { v with nextAssembleAfter := until_ }).seen → RecordStep w w' :=
    fun w' h => .assembled hc.1 hleg hcreated hv (hc.2 head honto) (h.trans (seen_writeBack w name _))
  have hw : w = { w with log := w.log ++ [], fed := { w.fed with staleHeads := w.fed.staleHeads, revision := w.fed.revision } } := by
    simp
  cases stopped with
  | true =>
    refine own_writeBack hw (fun _ h _ => h) (v := { v with nextAssembleAfter := until_ }) hvname (.inl rfl) (hstep _ rfl) ?_
    by_cases hd : (w.fed.volumes[name]?).map DistVolume.durable = some ({ v with nextAssembleAfter := until_ } : DistVolume).durable
    · obtain ⟨v₀, hv₀, he⟩ := Option.map_eq_some_iff.mp hd
      obtain ⟨es, hes⟩ := writeBack_eq w name { v with nextAssembleAfter := until_ }
      refine .inl (.inl ?_)
      rw [if_pos rfl, hes]
      exact sent_insert hv₀ he.symm
    · exact .inr (.stopped hd rfl)
  | false =>
    refine own_writeBack hw (fun _ h _ => h) (v := { v with nextAssembleAfter := until_ }) hvname (.inr rfl) (hstep _ rfl)
      (.inl (.inr ?_))
    show _ < (w.writeBack name _).fed.revision + 1
    rw [revision_writeBack]
    exact Nat.lt_succ_self _

theorem walk_assembleClaimed (hi : StepInv w) (hh : Holds t name w) :
    StepSafe t (assembleClaimed cfg name) (fun _ s => Holds t name s) w := by
  refine (walk_takeCopy (Q := fun vol => vol.name = name ∧ 2 ≤ vol.legs.length ∧ ∀ l ∈ vol.legs, l.state = .created)
    (fun fed vol hn h => ?_) hi hh).bind hi (fun vol w hi h => ?_) fun _ _ h => h.1
  · obtain ⟨hv, hlen, hcreated⟩ := assembleReady_ok h
    exact ⟨hv, hn _ _ hv, hlen, hcreated⟩
  · obtain ⟨hm, hname, hlen, hcreated⟩ := h.2 vol rfl
    refine (walk_mine (aloof_calls remote_assembleInner) answers_assembleInner known_copied hi hm).bind hi
      (fun r w hi h => ?_) fun _ _ h => h.1.1
    obtain ⟨v, stopped⟩ := r
    have hv := h.2 _ rfl
    obtain ⟨l, ls, hlegs⟩ : ∃ l ls, vol.legs = l :: ls := by
      cases hl : vol.legs with
      | nil => simp [hl] at hlen
      | cons l ls => exact ⟨l, ls, rfl⟩
    refine (walk_own known_copied (fun i s hi hh hc => ?_) hi h.1).bind hi (fun _ w hi hh => ?_) fun _ _ h => h
    · have hown := own_assembled (if stopped.isNone then none else some (i.now + cfg.cooldown)) hc
        (by rw [hlegs]; rfl) hname ⟨l, by simp [hlegs], rfl⟩ hcreated (by simpa [hlegs] using hv) stopped.isSome
      cases stopped with
      | none => exact hown
      | some e => exact hown
    · cases stopped with
      | none => exact Safe.ret stable_claimed (fun _ _ h => h) hi hh
      | some e => exact Safe.fail stable_claimed (fun _ _ h => h) hi hh

theorem walk_assemble (hi : StepInv w) : StepSafe t (assemble cfg t name) (fun _ _ => True) w :=
  walk_underClaim (fun _ hi hh => walk_assembleClaimed hi hh) hi

theorem walk_assembleVolume (hi : StepInv w) : StepSafe t (assembleVolume cfg t name) (fun _ _ => True) w := by
  refine (walk_aloof (aloof_calls (remote_get _)) hi).bind hi (fun x w hi _ => ?_) fun _ _ _ => trivial
  refine (walk_aloof (only_ofExcept x) hi).bind hi (fun vol w hi _ => ?_) fun _ _ _ => trivial
  split
  · exact walk_fail hi
  · split
    · exact walk_fail hi
    · exact (walk_assemble hi).bind hi (fun _ w hi _ => walk_aloof (only_ignore aloof_publish) hi) fun _ _ _ => trivial

theorem walk_retryAssembly (hi : StepInv w) : StepSafe t (retryAssembly cfg t name) (fun _ _ => True) w := by
  refine (walk_spawnedBy (s := .assemble name) hi).bind hi (fun _ w hi hh => ?_) fun _ _ _ => trivial
  refine (walk_assembleClaimed hi hh).attempt_bind hi fun r w hi hh => ?_
  refine (walk_letGo hi hh).bind hi (fun _ w hi _ => ?_) fun _ _ _ => trivial
  split
  · exact walk_aloof (only_ignore aloof_publish) hi
  · exact walk_ret hi

/-! ## Promoting -/

theorem promotable_presented {target : String} {presented : Nat} {fed : FedState} {p : Head.Promotable}
    (h : Head.promotable name target presented fed = .ok p) :
    p.vol.fenced = true ∧ p.vol.epoch = presented ∧ p.oldHead = p.vol.head := by
  obtain ⟨v, -, h⟩ := check_bind.mp h
  obtain ⟨old, hold, h⟩ := check_bind.mp h
  obtain rfl := Except.ok.inj h
  unfold Head.checkPromote at hold
  split at hold
  · cases hold
  rename_i hfence
  rw [not_or, Decidable.not_not, Decidable.not_not] at hfence
  split at hold
  · cases hold
  split at hold
  · cases hold
  split at hold
  · cases hold
  split at hold
  · cases hold
  split at hold
  · cases hold
  split at hold
  · cases hold
  · exact ⟨hfence.1, hfence.2, (Except.ok.inj hold).symm⟩

theorem walk_servePromoted {target : String} {served : Option String} (hi : StepInv w) (hh : Holds t name w) :
    StepSafe t (Head.servePromoted t name target served) (fun _ s => Holds t name s) w := by
  unfold Head.servePromoted
  split
  · exact walk_holds (aloof_publish.attempt.bind fun _ => aloof_publishClonesOf) hi hh
  · refine walk_holds (only_atomic fun _ w => ?_) hi hh
    exact aloof_export (u := w.note _) (f := unserved _) rfl (List.subset_append_left _ _) fun v hv hne =>
      .unserved _ hv hne rfl

/-- What a promote knows of its copy. -/
structure Presented (name target : String) (presented : Nat) (p : Head.Promotable) : Prop where
  named : p.vol.name = name
  fenced : p.vol.fenced = true
  epoch : p.vol.epoch = presented
  head : p.oldHead = p.vol.head
  leg : ∃ l ∈ p.vol.legs, l.node = target

theorem own_promoted {target array : String} {presented : Nat} {p : Head.Promotable} {vol : DistVolume}
    {served : Option String} {now : SystemTime} (hp : Presented name target presented p) (hne : p.oldHead ≠ some target)
    (hvol : RelabelledFrom p.vol vol) (hc : Copied name p.vol (some target) w) :
    Own name w (((w.note (.cleared name presented)).revise fun fed =>
      { fed with staleHeads := fed.staleHeads ++ Head.staleHead vol (p.oldHead.getD "") array now }).writeBack name
        (Head.promoted target p.up served vol)) := by
  have hvname : vol.name = name := by
    obtain ⟨legs, -, rfl⟩ := hvol
    exact hp.named
  have hseen : (((w.note (.cleared name presented)).revise fun fed =>
      { fed with staleHeads := fed.staleHeads ++ Head.staleHead vol (p.oldHead.getD "") array now }).writeBack name
        (Head.promoted target p.up served vol)).seen =
      { w.seen.put name (some (Head.promoted target p.up served vol).core) with
        copies := w.copies.erase name
        stale := w.fed.staleHeads ++ Head.staleHead vol (p.vol.head.getD "") array now } := by
    rw [seen_writeBack, ← hp.head]
    rfl
  refine own_writeBack (v := Head.promoted target p.up served vol) (r := w.fed.revision + 1) rfl (fun x hx hn => ?_)
    hvname (.inl rfl) ?_ (.inl (.inr ?_))
  · rcases List.mem_append.mp hx with hx | hx
    · exact hx
    · unfold Head.staleHead at hx
      split at hx
      · cases hx
      · obtain rfl := List.mem_singleton.mp hx
        exact (hn hvname).elim
  · refine .promoted hc.1 hp.named hp.fenced (fun he => hne (hp.head.trans he)) hp.leg hvol (hc.2 target rfl) ?_ hseen
    rw [hp.epoch]
    exact noted_writeBack _ _ rfl
  · rw [revision_writeBack]
    exact Nat.lt_succ_self _

theorem walk_takeOver {target array : String} {presented : Nat} {p : Head.Promotable}
    (hp : Presented name target presented p) (hne : p.oldHead ≠ some target) (hi : StepInv w)
    (hm : Owned t name (Copied name p.vol (some target)) w) :
    StepSafe t (Head.takeOver cfg t name target array presented p) (fun _ s => Holds t name s) w := by
  refine (walk_mine (aloof_calls Head.remote_assembleOn) answers_assembleOn known_copied hi hm).bind hi
    (fun r w hi h => ?_) fun _ _ h => h.1.1
  have hvol := h.2 _ rfl
  obtain ⟨vol, served, read⟩ := r
  exact (walk_own known_copied (fun _ _ _ _ hc => own_promoted hp hne hvol hc) hi h.1).bind hi
    (fun _ w hi hh => walk_servePromoted hi hh) fun _ _ h => h

theorem own_stayed {target : String} {presented : Nat} {p : Head.Promotable} {legs : List Leg}
    {onto : Option String} (hp : Presented name target presented p) (hlegs : SameLegs p.vol.legs legs)
    (hc : Copied name p.vol onto w) :
    Own name w (((w.note (.cleared name presented)).writeBack name
      { p.vol with legs := legs, fenced := false }).revise id) := by
  refine own_writeBack (v := { p.vol with legs := legs, fenced := false }) (r := w.fed.revision) rfl (fun _ h _ => h)
    hp.named (.inr rfl) ?_ (.inl (.inr ?_))
  · refine .stayed hc.1 hp.fenced hlegs ?_ (seen_writeBack (w.note (.cleared name presented)) name _)
    rw [hp.epoch]
    exact noted_writeBack (w.note (.cleared name presented)) { p.vol with legs := legs, fenced := false } rfl
  · show _ < (AppState.writeBack _ name _).fed.revision + 1
    rw [revision_writeBack]
    exact Nat.lt_succ_self _

theorem walk_promoteClaimed {target : String} {presented : Nat} (hi : StepInv w) (hh : Holds t name w) :
    StepSafe t (Head.promoteClaimed cfg t name target presented) (fun _ s => Holds t name s) w := by
  refine (walk_takeCopy (Q := Presented name target presented) (fun fed p hn h => ?_) hi hh).bind hi
    (fun p w hi h => ?_) fun _ _ h => h.1
  · obtain ⟨hv, hleg⟩ := promotable_ok h
    obtain ⟨hfenced, hepoch, hhead⟩ := promotable_presented h
    exact ⟨hv, hn _ _ hv, hfenced, hepoch, hhead, hleg⟩
  · obtain ⟨hm, hp⟩ := h.2 p rfl
    split
    · exact Safe.fail stable_claimed (fun _ _ h => h) hi hm.1
    · split
      · refine (walk_mine (aloof_calls (Head.remote_reattachLegs _)) (answers_reattachLegs _) known_copied hi hm).bind hi
          (fun legs w hi h => ?_) fun _ _ h => h.1.1
        have hlegs := h.2 _ rfl
        refine walk_own known_copied (fun i s hi hh hc => ?_) hi h.1
        obtain rfl := hp.named
        exact own_stayed hp hlegs hc
      · split
        · exact Safe.fail stable_claimed (fun _ _ h => h) hi hm.1
        · exact walk_takeOver hp ‹_› hi hm

theorem walk_promote {target : String} {presented : Nat} (hi : StepInv w) :
    StepSafe t (Head.promote cfg t name target presented) (fun _ _ => True) w :=
  walk_underClaim (fun _ hi hh => walk_promoteClaimed hi hh) hi

/-! ## Reassembling -/

theorem reassemblable_unfenced {fed : FedState} {p : Head.Reassemblable} (h : Head.reassemblable name fed = .ok p) :
    p.vol.fenced = false := by
  obtain ⟨v, -, h⟩ := check_bind.mp h
  split at h
  · cases h
  · split at h
    · cases h
    · rename_i hf
      split at h
      · cases h
      · split at h
        · cases h
        · obtain rfl := Except.ok.inj h
          simpa using fun hv => hf (.inl hv)

theorem own_reassembled {head array : String} {up : List String} {served : Option String} {c vol : DistVolume}
    {read : Option EngineArray} {onto : Option String} (hname : c.name = name) (hfenced : c.fenced = false)
    (hhead : c.head = some head) (hvol : RelabelledFrom c vol) (hc : Copied name c onto w) :
    Own name w (((Head.noteBack w name read served).writeBack name
      (Head.reassembled head array (Head.comesBack head up) served vol)).revise id) := by
  have hvname : vol.name = name := by
    obtain ⟨legs, -, rfl⟩ := hvol
    exact hname
  have hnoted := @noted_writeBack w name _ _ (Head.noteBack w name read served)
    (Head.reassembled head array (Head.comesBack head up) served vol) rfl
  refine own_writeBack (v := Head.reassembled head array (Head.comesBack head up) served vol) (r := w.fed.revision) rfl
    (fun _ h _ => h) hvname (.inr rfl) ?_ (.inl (.inr ?_))
  · refine .reassembled hc.1 hfenced hhead hvol hnoted ?_ (seen_writeBack _ name _)
    exact volume_writeBack (Head.noteBack w name read served) name _
  · show _ < (AppState.writeBack _ name _).fed.revision + 1
    rw [revision_writeBack]
    exact Nat.lt_succ_self _

theorem walk_reassemble (hi : StepInv w) (hh : Holds t name w) :
    StepSafe t (Head.reassemble cfg t name) (fun _ s => Holds t name s) w := by
  refine (walk_takeCopy (Q := fun p => p.vol.name = name ∧ p.vol.head = some p.head ∧ p.vol.fenced = false)
    (fun fed p hn h => ?_) hi hh).bind hi (fun p w hi h => ?_) fun _ _ h => h.1
  · obtain ⟨hv, hhead⟩ := reassemblable_ok h
    exact ⟨hv, hn _ _ hv, hhead, reassemblable_unfenced h⟩
  · obtain ⟨hm, hname, hhead, hfenced⟩ := h.2 p rfl
    split
    · exact Safe.fail stable_claimed (fun _ _ h => h) hi hm.1
    · rename_i array _
      refine (walk_mine (aloof_calls (remote_inquire _)) (answers_true _) known_copied hi hm).attempt_bind hi
        fun found w hi h => ?_
      split
      · unfold Head.putBack
        dsimp only
        split
        · exact Safe.fail stable_claimed (fun _ _ h => h) hi h.1.1
        · refine (walk_mine (aloof_calls Head.remote_assembleOn) answers_assembleOn known_copied hi h.1).bind hi
            (fun r w hi h => ?_) fun _ _ h => h.1.1
          have hvol := h.2 _ rfl
          obtain ⟨vol, served, read⟩ := r
          refine (walk_own known_copied (fun i s hi hh hc => ?_) hi h.1).bind hi (fun _ w hi hh => ?_) fun _ _ h => h
          · have hrname : (Head.reassembled p.head array (Head.comesBack p.head p.up) served vol).name = name := by
              obtain ⟨legs, -, rfl⟩ := hvol
              exact hname
            dsimp only
            rw [hrname]
            exact own_reassembled hname hfenced hhead hvol hc
          · exact walk_holds (aloof_publishAll.bind fun _ => aloof_publishClonesOf) hi hh
      · exact Safe.ret stable_claimed (fun _ _ h => h) hi h.1.1
      · exact Safe.ret stable_claimed (fun _ _ h => h) hi h.1.1

theorem walk_reassembleHeads (hi : StepInv w) : StepSafe t (Head.reassembleHeads cfg t) (fun _ _ => True) w := by
  refine (walk_aloof (only_atomic fun _ w => Aloof.refl w) hi).bind hi (fun x w hi _ => ?_) fun _ _ _ => trivial
  refine walk_forEach (fun name w hi => ?_) hi
  refine (walk_claim hi).bind hi (fun mine w hi h => ?_) fun _ _ _ => trivial
  cases mine with
  | false => exact walk_ret hi
  | true =>
    refine (walk_reassemble hi (h rfl)).attempt_bind hi fun r w hi hh => ?_
    refine (walk_letGo hi hh).bind hi (fun _ w hi _ => ?_) fun _ _ _ => trivial
    split
    · exact walk_ret hi
    · exact walk_aloof (only_atomic fun _ _ => aloof_cooldown fun _ => ⟨⟨rfl, rfl⟩, rfl⟩) hi

/-! ## Replacing -/

/-- Where the legs of a claimed volume are known to be. -/
def Sited (name : String) (S : List String × Option Replacement) (w : AppState) : Prop :=
  Unmade w name → ∀ c, w.seen.records name = some c → c.sites = S

theorem known_settled {S : List String × Option Replacement} : Abiding name (Sited name S) := by
  intro w w' hs hd h hun c' hc'
  obtain ⟨c, hc, he⟩ := hs.sites hun c' hc'
  exact he.trans (h (fun x hx => hun x (hd.creations hx)) c hc)

/-- The target holds no leg. -/
theorem chooseTarget_free {fed : FedState} {v : DistVolume} {«from» target : String} {«to» : Option String}
    (h : chooseTarget cfg fed v «from» «to» = .ok target) : ∀ l ∈ v.legs, l.node ≠ target := by
  unfold chooseTarget at h
  cases «to» with
  | some t =>
    dsimp only at h
    split at h
    · cases h
    split at h
    · cases h
    split at h
    · cases h
    · rename_i hany
      obtain rfl := Except.ok.inj h
      exact fun l hl he => hany (List.any_eq_true.mpr ⟨l, hl, by simp [he]⟩)
  | none =>
    dsimp only at h
    split at h
    · rename_i picks hplan
      obtain ⟨ps, rfl, hin, -, hlen⟩ := plan_picks hplan
      obtain ⟨c, rfl⟩ := List.length_eq_one_iff.mp hlen
      obtain ⟨hc, -⟩ := hin c (List.mem_singleton_self c)
      obtain ⟨n, hn, rfl⟩ := List.mem_map.mp hc
      obtain rfl := Except.ok.inj h
      exact (of_decide_eq_true (List.mem_filter.mp hn).2).2.1
    · cases h

/-- What a replacement goes by: no leg is coming, and its target holds none. -/
def Clear (p : Replaceable) : Prop := p.vol.replacing = none ∧ ∀ l ∈ p.vol.legs, l.node ≠ p.target

/-- The sites of the copy. -/
def Orchestrate.Replaceable.sites (p : Replaceable) : List String × Option Replacement := p.vol.core.sites

theorem walk_beginReplacement {«from» : String} {«to» : Option String} (hi : StepInv w) (hh : Holds t name w) :
    StepSafe t (beginReplacement cfg name «from» «to») (fun x s => Holds t name s ∧
      ∀ p, x = .ok p → Owned t name (Sited name p.sites) s ∧ Clear p) w := by
  refine Safe.step stable_claimed (fun s i hi hh _ _ => ?_) hi hh
  dsimp only
  split
  · rename_i p hp
    obtain ⟨hv, htarget, -, hnone⟩ := replaceable_ok hp
    have hal : Aloof t s (if «to».isSome then
        s.note (.asked p.vol «from» p.target (crowded cfg s.fed p.vol «from» p.target)) else s) := by
      split
      · exact aloof_of_calls (b := true) (.of_eq rfl (List.subset_append_left _ _))
      · exact .refl s
    have hset : Sited name p.sites s := fun _ c hc => by
      rw [Option.some.inj (hc.symm.trans (records_eq hv))]
      rfl
    refine ⟨hal.inv hi, hal.guar, ?_⟩
    refine Safe.ret (stable_mine known_settled) (fun s _ h => ⟨h.1, fun p' he => ?_⟩) (hal.inv hi)
      (hal.mine known_settled ⟨hh, hset⟩)
    exact Except.ok.inj he ▸ ⟨h, hnone, chooseTarget_free htarget⟩
  · exact ⟨hi, (Aloof.refl s).guar, Safe.fail stable_claimed (fun _ _ h => ⟨h, fun _ he => nomatch he⟩) hi hh⟩

/-- The holder puts a record in place of the one that is there. -/
theorem own_put {v : DistVolume} {log : List Event} {begun : KeyMap Nat} {orphans : List Orphan} (hw : w' = { w with
      log := log
      begun := begun
      fed := { w.fed with
        orphans := orphans
        revision := w.fed.revision + 1
        volumes := w.fed.volumes.insert name v } })
    (hl : w.log ⊆ log) (hname : v.name = name) (hstep : w'.seen = w.seen.put name (some v.core) → RecordStep w w') :
    Own name w w' := by
  have hseen : w'.seen = w.seen.put name (some v.core) := by
    rw [← seen_insert, hw]
    rfl
  refine ⟨by rw [hw], by rw [hw], by rw [hw], fun h => ?_, fun n hne => ⟨by rw [hw], fun _ hs _ => ?_, fun _ c hc => ?_⟩,
    .of_eq (hstep hseen) (.inr ?_) (by rwa [hw]) (by rw [hw]) (by rw [hw])⟩
  · rw [hw]
    exact named_insert h hname
  · rwa [hw] at hs
  · refine ⟨c, ?_, rfl⟩
    rw [hseen] at hc
    simpa only [View.put, if_neg (Ne.symm hne)] using hc
  · rw [hw]
    exact Nat.lt_succ_self _

/-- The holder leaves the records as they are. -/
theorem own_beside {orphans : List Orphan}
    (hw : w' = { w with fed := { w.fed with orphans := orphans, revision := w.fed.revision + 1 } }) : Own name w w' := by
  have hseen : w'.seen = w.seen := by
    rw [hw]
    rfl
  refine ⟨by rw [hw], by rw [hw], by rw [hw], fun h => ?_, fun n _ => .of_seen hseen n,
    .of_eq (.unseen hseen) (.inr ?_) (by rw [hw]; exact List.Subset.refl _) (by rw [hw]) (by rw [hw])⟩
  · rw [hw]
    exact h
  · rw [hw]
    exact Nat.lt_succ_self _

theorem own_replacing {«from» reason : String} {leg : Leg} {now : SystemTime} {p : Replaceable} {v : DistVolume}
    (hc : Clear p) (hnode : leg.node = p.target) (hstate : leg.state = .created) (hs : Sited name p.sites w)
    (hv : w.fed.volumes[name]? = some v) (hn : Named w.fed) :
    Own name w ((({ w with begun := w.begun.insert name t }).note
      (.replacing name (w.undertakings.any fun u => name ∈ u.deletes))).revise fun fed =>
        { fed with volumes := fed.volumes.insert name { v with
          replacing := some { «from» := «from», leg := leg, reason := reason, startedAt := now } } }) := by
  refine own_put (v := { v with replacing := some { «from» := «from», leg := leg, reason := reason, startedAt := now } })
    rfl (List.subset_append_left _ _) (hn name v hv) fun hseen => .replacing hv hstate (fun hun => ?_) hseen
  · have hsites := hs hun _ (records_eq hv)
    rw [Replaceable.sites, sites_core, sites_core, Prod.mk.injEq] at hsites
    refine ⟨hsites.2.trans hc.1, fun l hl he => ?_⟩
    have hmem : l.node ∈ p.vol.legs.map (·.node) := hsites.1 ▸ List.mem_map_of_mem hl
    obtain ⟨l', hl', hnode'⟩ := List.mem_map.mp hmem
    exact hc.2 l' hl' (hnode'.trans (he.trans hnode))

theorem walk_recordReplacement {«from» reason : String} {leg : Leg} {p : Replaceable} (hc : Clear p)
    (hnode : leg.node = p.target) (hstate : leg.state = .created) (hi : StepInv w)
    (hm : Owned t name (Sited name p.sites) w) :
    StepSafe t (recordReplacement t name «from» leg reason) (fun _ s => Holds t name s) w := by
  refine walk_own known_settled (fun i s hi hh hs => ?_) hi hm
  split
  · exact .refl s
  · exact own_replacing hc hnode hstate hs ‹_› hi.named

theorem walk_undoLeg {leg : Leg} {e : Fault} (hi : StepInv w) (hh : Holds t name w) :
    StepSafe t (do undoLeg t leg; .fail e : Async α) (fun _ s => Holds t name s) w :=
  (walk_holds (aloof_calls remote_undoLeg) hi hh).bind hi
    (fun _ _ hi hh => Safe.fail stable_claimed (fun _ _ h => h) hi hh) fun _ _ h => h

theorem walk_buildReplacement {«from» reason : String} {«to» : Option String} (hi : StepInv w)
    (hh : Holds t name w) :
    StepSafe t (buildReplacement cfg t name «from» «to» reason) (fun _ s => Holds t name s) w := by
  refine (walk_beginReplacement hi hh).bind hi (fun p w hi h => ?_) fun _ _ h => h.1
  obtain ⟨hm, hclear⟩ := h.2 p rfl
  split
  · exact Safe.fail stable_claimed (fun _ _ h => h) hi hm.1
  · refine (walk_mine (aloof_calls remote_makeLeg) answers_makeLeg known_settled hi hm).bind hi
      (fun leg w hi h => ?_) fun _ _ h => h.1.1
    obtain ⟨id, master, hface⟩ := h.2 leg rfl
    refine (walk_mine (aloof_calls remote_wireLeg) answers_wireLeg known_settled hi h.1).bind hi
      (fun r w hi h => ?_) fun _ _ h => h.1.1
    have hface := (h.2 r rfl).trans hface
    split
    · exact walk_undoLeg hi h.1.1
    · refine (walk_recordReplacement hclear (congrArg Prod.fst hface) (congrArg (fun f => f.2.2.2) hface) hi h.1).bind hi
        (fun ok w hi hh => ?_) fun _ _ h => h
      split
      · exact Safe.ret stable_claimed (fun _ _ h => h) hi hh
      · exact walk_undoLeg hi hh

theorem walk_startReplacement {«from» reason : String} {«to» : Option String} (hi : StepInv w) :
    StepSafe t (startReplacement cfg t name «from» «to» reason) (fun _ _ => True) w := by
  refine (walk_claim hi).bind hi (fun mine w hi h => ?_) fun _ _ _ => trivial
  cases mine with
  | false => exact walk_fail hi
  | true =>
    refine (walk_buildReplacement hi (h rfl)).attempt_bind hi fun r w hi hh => ?_
    split
    · exact (walk_spawn (s := .finish name) hi hh).bind hi (fun _ w hi _ => walk_ret hi) fun _ _ _ => trivial
    · exact (walk_letGo hi hh).bind hi (fun _ w hi _ => walk_fail hi) fun _ _ _ => trivial

/-- A replacement that is tried, and put off when it cannot start. -/
theorem walk_startOr {v «from» reason : String} {«to» : Option String} {f : DistVolume → DistVolume}
    (hf : ∀ v, ((f v).core = v.core ∧ (f v).name = v.name) ∧ (f v).durable = v.durable) (hi : StepInv w) :
    StepSafe t (do
      match ← (startReplacement cfg t v «from» «to» reason).attempt with
      | .ok _ => return ()
      | .error _ => .modify (·.setFed (·.modifyVolume v f)) : Async Unit) (fun _ _ => True) w := by
  refine (walk_startReplacement hi).attempt_bind hi fun r w hi _ => ?_
  split
  · exact walk_ret hi
  · exact walk_aloof (only_atomic fun _ _ => aloof_cooldown hf) hi

/-! ## Ending a replacement -/

/-- The volume's coming leg is known. -/
def Coming (name : String) (rep : Replacement) (w : AppState) : Prop :=
  Unmade w name → ∀ c, w.seen.records name = some c → c.replacing = some rep

theorem known_coming {rep : Replacement} : Abiding name (Coming name rep) := by
  intro w w' hs hd h hun c' hc'
  obtain ⟨c, hc, he⟩ := hs.sites hun c' hc'
  exact (congrArg Prod.snd he).trans (h (fun x hx => hun x (hd.creations hx)) c hc)

theorem walk_giveUp {owner : Nat} {rep : Replacement} (hi : StepInv w) (hh : Holds t name w) :
    StepSafe t (giveUp cfg owner name rep) (fun _ s => Holds t name s) w := by
  refine (walk_holds (aloof_calls remote_undoLeg) hi hh).bind hi (fun _ w hi hh => ?_) fun _ _ h => h
  refine walk_own (R := fun _ => True) (fun _ _ _ _ h => h) (fun i s hi hh _ => ?_) hi ⟨hh, trivial⟩
  cases hv : s.fed.volumes[name]? with
  | none =>
    exact own_beside <| congrArg (fun fed : FedState => { s with fed := { fed with revision := s.fed.revision + 1 } }) (modifyVolume_none hv)
  | some v =>
    have hrev := congrArg (fun fed : FedState => { s with fed := { fed with revision := s.fed.revision + 1 } })
      (modifyVolume_some (f := fun v => { v with replacing := none, nextRelegAfter := some (i.now + cfg.cooldown) }) hv)
    exact own_put hrev (List.Subset.refl _) (hi.named name v hv) fun hseen => .gaveUp hv hseen

theorem walk_recordSwap {rep : Replacement} {orphan : Option Orphan} (hi : StepInv w)
    (hm : Owned t name (Coming name rep) w) :
    StepSafe t (recordSwap name rep orphan) (fun _ s => Holds t name s) w := by
  refine walk_own known_coming (fun i s hi hh hc => ?_) hi hm
  cases hv : s.fed.volumes[name]? with
  | none =>
    simp only [hv]
    exact own_beside <| congrArg (fun fed : FedState => { s with fed := { fed with revision := s.fed.revision + 1 } })
      (modifyVolume_none (show { s.fed with orphans := s.fed.orphans ++ orphan.toList }.volumes[name]? = none from hv))
  | some v =>
    simp only [hv]
    have hrev := congrArg (fun fed : FedState =>
        { s.note (.swapped v rep.from) with fed := { fed with revision := s.fed.revision + 1 } })
      (modifyVolume_some (f := swapLeg rep)
        (show { s.fed with orphans := s.fed.orphans ++ orphan.toList }.volumes[name]? = some v from hv))
    exact own_put hrev (List.subset_append_left _ _) (hi.named name v hv) fun hseen =>
      .swapped hv (fun hun => hc hun _ (records_eq hv)) hseen

/-- What the holder reads, with what that says. -/
theorem walk_read {f : AppState → α} {R : α → AppState → Prop} (hR : ∀ a, Abiding name (R a)) (h : ∀ s, R (f s) s)
    (hi : StepInv w) (hh : Holds t name w) :
    StepSafe t (.get f) (fun x s => ∃ a, x = .ok a ∧ Owned t name (R a) s) w := by
  refine Safe.step stable_claimed (fun s i hi hh _ _ => ⟨hi, (Aloof.refl s).guar, ?_⟩) hi hh
  exact Safe.ret (stable_mine (hR (f s))) (fun _ _ h => ⟨_, rfl, h⟩) hi ⟨hh, h s⟩

/-- Of a replacement that can be waited for, its leg is coming. -/
theorem coming_finishReady {owner : Nat} {s : AppState} {rep : Replacement}
    (h : ((finishReady name s.fed).map fun rep => (rep, (s.begun[name]?).getD me)) = some (rep, owner)) :
    Coming name rep s := by
  obtain ⟨rep', hr, he⟩ := Option.map_eq_some_iff.mp h
  obtain ⟨rfl, -⟩ := Prod.mk.inj he
  obtain ⟨v, hv, hrep⟩ := finishReady_eq hr
  intro _ c hc
  rw [← Option.some.inj ((records_eq hv).symm.trans hc)]
  exact hrep

theorem walk_finishInner (hi : StepInv w) (hh : Holds t name w) :
    StepSafe t (finishInner cfg t name) (fun _ s => Holds t name s) w := by
  refine (walk_read (R := fun o s => ∀ rep owner, o = some (rep, owner) → Coming name rep s) (fun o w w' hs hd h rep owner he =>
    known_coming w w' hs hd (h rep owner he)) (fun s rep owner => coming_finishReady) hi hh).bind hi
    (fun r w hi h => ?_) fun _ _ ⟨_, he, _⟩ => nomatch he
  obtain ⟨_, he, hm⟩ := h
  obtain rfl := Except.ok.inj he
  split
  · exact Safe.ret stable_claimed (fun _ _ h => h) hi hm.1
  · rename_i rep owner
    have hm : Owned t name (Coming name rep) w := ⟨hm.1, hm.2 rep owner rfl⟩
    refine (walk_mine (aloof_calls (remote_ask _)) (answers_true _) known_coming hi hm).bind hi
      (fun done w hi h => ?_) fun _ _ h => h.1.1
    split
    · refine (walk_mine (aloof_calls remote_retireOld) (answers_true _) known_coming hi h.1).bind hi
        (fun orphan w hi h => walk_recordSwap hi h.1) fun _ _ h => h.1.1
    · exact walk_giveUp hi h.1.1

theorem walk_finishReplacement (hi : StepInv w) : StepSafe t (finishReplacement cfg t name) (fun _ _ => True) w := by
  refine (walk_spawnedBy (s := .finish name) hi).bind hi (fun _ w hi hh => ?_) fun _ _ _ => trivial
  exact (walk_finishInner hi hh).attempt_bind hi fun _ w hi hh => walk_letGo hi hh

/-! ## The reconciler's passes -/

theorem walk_resume {s : Spawn} (hi : StepInv w) : StepSafe t (resume t s s.name) (fun _ _ => True) w := by
  refine (walk_claim hi).bind hi (fun mine w hi h => ?_) fun _ _ _ => trivial
  cases mine with
  | false => exact walk_ret hi
  | true => exact walk_spawn hi (h rfl)

theorem walk_recover {enabled : Bool} (hi : StepInv w) : StepSafe t (recover cfg t enabled) (fun _ _ => True) w := by
  refine (walk_aloof (only_atomic fun _ _ => aloof_planRecovery) hi).bind hi (fun r w hi _ => ?_) fun _ _ _ => trivial
  obtain ⟨plan, now⟩ := r
  refine (walk_forEach (fun name w hi => walk_resume (s := .finish name) hi) hi).bind hi (fun _ w hi _ => ?_)
    fun _ _ _ => trivial
  refine (walk_forEach (fun m w hi => ?_) hi).bind hi (fun _ w hi _ => ?_) fun _ _ _ => trivial
  · exact walk_startOr (fun _ => ⟨⟨rfl, rfl⟩, rfl⟩) hi
  · exact walk_forEach (fun name w hi => walk_resume (s := .assemble name) hi) hi

theorem walk_rebalance {active : Bool} (hi : StepInv w) :
    StepSafe t (Rebalance.run cfg t active) (fun _ _ => True) w := by
  unfold Rebalance.run
  split
  · refine (walk_aloof (only_atomic fun _ w => Aloof.refl w) hi).bind hi (fun r w hi _ => ?_) fun _ _ _ => trivial
    refine walk_forEach (fun m w hi => ?_) hi
    exact walk_startOr (fun _ => ⟨⟨rfl, rfl⟩, rfl⟩) hi
  · exact walk_ret hi

theorem walk_prestage {node «from» : Option String} {class? : Option BandwidthClass} (hi : StepInv w) :
    StepSafe t (Head.prestage cfg t name node «from» class?) (fun _ _ => True) w := by
  refine (walk_aloof (only_atomic fun _ w => ?_) hi).bind hi (fun x w hi _ => ?_) fun _ _ _ => trivial
  · split
    · exact aloof_edit fun _ => ⟨rfl, rfl⟩
    · exact .refl w
  · exact (walk_aloof (only_ofExcept x) hi).bind hi (fun f w hi _ => walk_startReplacement hi) fun _ _ _ => trivial

theorem walk_rehead {now : SystemTime} {target : String} {epoch : Nat} (hi : StepInv w) :
    StepSafe t (Head.rehead cfg t now name target epoch) (fun _ _ => True) w := by
  refine (walk_aloof aloof_fence hi).attempt_bind hi fun r w hi _ => ?_
  split
  · exact walk_ret hi
  · refine (walk_promote hi).attempt_bind hi fun r w hi _ => ?_
    split
    · exact walk_ret hi
    · exact walk_aloof (only_atomic fun _ _ => aloof_cooldown fun _ => ⟨⟨rfl, rfl⟩, rfl⟩) hi

theorem walk_reheadLost {active : Bool} (hi : StepInv w) :
    StepSafe t (Head.reheadLost cfg t active) (fun _ _ => True) w := by
  unfold Head.reheadLost
  split
  · refine (walk_aloof (only_atomic fun _ w => Aloof.refl w) hi).bind hi (fun r w hi _ => ?_) fun _ _ _ => trivial
    exact walk_forEach (fun m w hi => walk_rehead hi) hi
  · exact walk_ret hi

theorem walk_closeWindow {epoch : Nat} {outcome : Head.Outcome} (hi : StepInv w) :
    StepSafe t (Head.closeWindow cfg t name epoch outcome) (fun _ _ => True) w := by
  refine (walk_aloof (only_atomic fun _ w => ?_) hi).bind hi (fun x w hi _ => ?_) fun _ _ _ => trivial
  · split
    · exact aloof_edit fun _ => ⟨rfl, rfl⟩
    · exact .refl w
  · refine (walk_aloof (only_ofExcept x) hi).bind hi (fun target w hi _ => ?_) fun _ _ _ => trivial
    cases outcome with
    | abort => exact walk_ret hi
    | commit => exact (walk_aloof aloof_fence hi).bind hi (fun _ _ hi _ => walk_promote hi) fun _ _ _ => trivial

theorem walk_moveOne {now : SystemTime} {«from» target : String} (hi : StepInv w) :
    StepSafe t (Migrate.moveOne cfg t now name «from» target) (fun _ _ => True) w := by
  refine (walk_startReplacement hi).attempt_bind hi fun r w hi _ => ?_
  refine walk_aloof (only_atomic fun _ _ => aloof_edit fun v => ?_) hi
  cases r with
  | ok _ => exact ⟨rfl, rfl⟩
  | error e => exact ⟨rfl, rfl⟩

theorem walk_migrations {active : Bool} (hi : StepInv w) :
    StepSafe t (Migrate.run cfg t active) (fun _ _ => True) w := by
  unfold Migrate.run
  split
  · refine (walk_aloof (only_atomic fun _ w => Aloof.refl w) hi).bind hi (fun r w hi _ => ?_) fun _ _ _ => trivial
    refine walk_forEach (fun d w hi => ?_) hi
    unfold Migrate.runOne
    split
    · exact walk_moveOne hi
    · exact walk_aloof (only_atomic fun _ _ => aloof_edit fun _ => ⟨rfl, rfl⟩) hi
    · split
      · exact walk_ret hi
      · exact walk_aloof aloof_setMigration hi
    · split
      · exact walk_ret hi
      · exact walk_aloof aloof_setMigration hi
  · exact walk_ret hi

theorem walk_backups (hi : StepInv w) : StepSafe t (Backups.run cfg t) (fun _ _ => True) w := by
  refine (walk_aloof (only_atomic fun _ w => Aloof.refl w) hi).bind hi (fun r w hi _ => ?_) fun _ _ _ => trivial
  refine walk_forEach (fun name w hi => ?_) hi
  refine (walk_claim hi).bind hi (fun mine w hi h => ?_) fun _ _ _ => trivial
  cases mine with
  | false => exact walk_ret hi
  | true =>
    refine (walk_holds aloof_backupStep hi (h rfl)).attempt_bind hi fun r w hi hh => ?_
    refine (walk_release hi hh).bind hi (fun _ w hi _ => ?_) fun _ _ _ => trivial
    split
    · exact walk_ret hi
    · exact walk_aloof aloof_recordFailure hi

/-! ## Requests -/

theorem walk_expand {«to» : Nat} (hi : StepInv w) : StepSafe t (Expand.expand t name «to») (fun _ _ => True) w := by
  refine (walk_claim hi).bind hi (fun mine w hi h => ?_) fun _ _ _ => trivial
  cases mine with
  | false => exact walk_fail hi
  | true =>
    refine (walk_holds aloof_expandClaimed hi (h rfl)).attempt_bind hi fun r w hi hh => ?_
    refine (walk_release hi hh).bind hi (fun _ w hi _ => ?_) fun _ _ _ => trivial
    split
    · exact walk_ret hi
    · exact (walk_aloof aloof_record hi).bind hi (fun _ w hi _ => walk_fail hi) fun _ _ _ => trivial

theorem walk_serveCreated {n : Nat} (hi : StepInv w) :
    StepSafe t (Api.serveCreated cfg t name n) (fun _ _ => True) w := by
  have hwire : StepSafe t (Api.wire cfg t name n) (fun _ _ => True) w := by
    unfold Api.wire
    split
    · exact (walk_assemble hi).attempt fun _ _ _ => trivial
    · exact walk_ret hi
  refine hwire.bind hi (fun r w hi _ => ?_) fun _ _ _ => trivial
  split
  · exact walk_aloof (only_ignore aloof_publish) hi
  · exact walk_ret hi

theorem walk_createLegged {req : Api.CreateVolumeRequest} {hosts : List HostServe} (hi : StepInv w) :
    StepSafe t (Api.createLegged cfg t req hosts) (fun _ _ => True) w := by
  have henter : (enter (Api.legNameFree req.name) fun _ => { task := t, creates := [req.name] }).Only (Aloof t) :=
    aloof_enter fun _ => rfl
  refine (walk_aloof henter hi).bind hi (fun _ w hi _ => ?_) fun _ _ _ => trivial
  refine (walk_aloof (aloof_calls (remote_get _)) hi).bind hi (fun x w hi _ => ?_) fun _ _ _ => trivial
  refine (walk_aloof (only_ofExcept x) hi).bind hi (fun r w hi _ => ?_) fun _ _ _ => trivial
  refine (Safe.of_answers (aloof_calls (Api.remote_createLegs _)) (answers_createLegs _) stable_always
    (fun _ _ hi _ h _ => ⟨h.inv hi, h.guar, trivial⟩) hi trivial).bind hi (fun made w hi hmade => ?_) fun _ _ _ => trivial
  have hmade := hmade.2 made rfl
  obtain ⟨legs, failure⟩ := made
  cases failure with
  | some why =>
    exact (walk_forEach (fun l w hi => walk_aloof (aloof_calls Api.remote_rollbackLeg) hi) hi).bind hi
      (fun _ _ hi _ => walk_fail hi) fun _ _ _ => trivial
  | none =>
    have hrecord : (Api.recordVolume t req.name (Api.legged req r.1 hosts legs)).Only (Aloof t) := by
      refine aloof_recordVolume (fun _ => rfl) fun now => ⟨hmade.1, ?_, rfl, rfl⟩
      unfold Api.legged
      dsimp only
      split <;> exact ⟨nofun, nofun⟩
    exact (walk_aloof hrecord hi).bind hi (fun _ _ hi _ => walk_serveCreated hi) fun _ _ _ => trivial

theorem walk_createVolume {req : Api.CreateVolumeRequest} (hi : StepInv w) :
    StepSafe t (Api.createVolume cfg t req) (fun _ _ => True) w := by
  refine (walk_aloof (only_ofExcept _) hi).bind hi (fun hosts w hi _ => ?_) fun _ _ _ => trivial
  split
  · exact walk_aloof ((only_ofExcept _).bind fun _ => aloof_createClone) hi
  · exact (walk_aloof (only_ofExcept _) hi).bind hi (fun _ _ hi _ => walk_createLegged hi) fun _ _ _ => trivial

theorem walk_tracked {task : Async α} (h : StepSafe t task (fun _ _ => True) w) (hi : StepInv w) :
    StepSafe t (tracked t task) (fun _ _ => True) w :=
  h.attempt_bind hi fun _ _ hi _ => walk_aloof aloof_ended hi

/-! ## Deleting -/

/-- A delete of the volume is under way. -/
def Deleting (t : Nat) (name : String) (w : AppState) : Prop :=
  ∃ x ∈ w.undertakings.filter (·.task = t), x.deletes = [name]

theorem stable_deleting : stepDiscipline.Stable t (Deleting t name) := fun _ _ _ hu _ _ hg h => by
  unfold Deleting
  rw [hg.undertakings t hu]
  exact h

theorem Deleting.mem (h : Deleting t name w) : (t, [name]) ∈ w.deletes := by
  obtain ⟨x, hx, hd⟩ := h
  obtain ⟨hx, ht⟩ := List.mem_filter.mp hx
  exact List.mem_map.mpr ⟨x, hx, Prod.ext (of_decide_eq_true ht) hd⟩

/-- What the delete does beside its own undertaking. -/
def Beneath (t : Nat) (w w' : AppState) : Prop := Aloof t w w' ∧ w'.undertakings = w.undertakings

theorem Beneath.deleting (h : Beneath t w w') (hd : Deleting t name w) : Deleting t name w' := by
  unfold Deleting
  rwa [h.2]

theorem beneath_calls {task : Async α} (ht : task.Only Remote) : task.Only (Beneath t) :=
  ht.mono fun _ _ h => ⟨aloof_of_calls h, h.undertakings⟩

theorem walk_beneath {task : Async α} (ht : task.Only (Beneath t)) (hi : StepInv w) (hd : Deleting t name w) :
    StepSafe t task (fun _ s => Deleting t name s) w :=
  (Safe.of_only ht stable_deleting (fun _ _ hi hd h _ => ⟨h.1.inv hi, h.1.guar, h.deleting hd⟩) hi hd).mono
    fun _ _ h => h.2

/-- A step that goes by what is under way. -/
theorem walk_deletes {f : Reply → AppState → α × AppState} (h : ∀ i s, Deleting t name s → Beneath t s (f i s).2)
    (hi : StepInv w) (hd : Deleting t name w) : StepSafe t (.atomic f) (fun _ s => Deleting t name s) w := by
  refine Safe.step stable_deleting (fun s i hi hd _ _ => ?_) hi hd
  have hb := h i s hd
  exact ⟨hb.1.inv hi, hb.1.guar, Safe.ret stable_deleting (fun _ _ h => h) (hb.1.inv hi) (hb.deleting hd)⟩

theorem walk_onVolumeDelete (hi : StepInv w) (hd : Deleting t name w) :
    StepSafe t (Api.onVolumeDelete name) (fun _ s => Deleting t name s) w := by
  refine (walk_beneath (beneath_calls (remote_get _)) hi hd).bind hi (fun held w hi hd => ?_) fun _ _ h => h
  split
  · exact Safe.ret stable_deleting (fun _ _ h => h) hi hd
  · refine (walk_beneath (only_forEach (fun _ => beneath_calls Api.remote_dropHeld) _) hi hd).bind hi
      (fun _ w hi hd => ?_) fun _ _ h => h
    refine walk_deletes (fun _ s hd => ⟨?_, rfl⟩) hi hd
    unfold AppState.revise AppState.setFed
    dsimp only
    split
    · exact aloof_beside (f := id) fun _ => ⟨rfl, rfl, rfl⟩
    · rename_i b hb
      exact aloof_insertBackup (.stopped hd.mem (backups_eq hb) (seen_insertBackup s name _))

theorem beneath_dropVolume {orphans : List Orphan} (hd : Deleting t name w) :
    Beneath t w (w.revise fun fed =>
      { fed with volumes := fed.volumes.erase name, orphans := fed.orphans ++ orphans }) := by
  have hseen := seen_erase w name
  refine ⟨.of_step rfl (.dropped hd.mem hseen) (fun n => ⟨rfl, fun _ hs _ => hs, fun _ c hc => ⟨c, ?_, rfl⟩⟩)
    (fun h n v hv => ?_) (offered_revise rfl) (List.Subset.refl _), rfl⟩
  · refine Eq.trans ?_ hc
    change _ = ((w.fed.volumes.erase name)[n]?).map _
    rw [KeyMap.get_erase]
    split
    · change ((w.fed.volumes.erase name)[n]?).map _ = _ at hc
      rw [KeyMap.get_erase, if_pos ‹_›] at hc
      cases hc
    · rfl
  · change (w.fed.volumes.erase name)[n]? = some v at hv
    rw [KeyMap.get_erase] at hv
    split at hv
    · cases hv
    · exact h n v hv

theorem walk_takeDown {vol : DistVolume} (hi : StepInv w) (hd : Deleting t name w) :
    StepSafe t (Api.takeDown name vol) (fun _ _ => True) w := by
  have hrevoke : (revoke vol).Only (Beneath t) :=
    (aloof_revoke.and serves_revoke).mono fun _ _ h => ⟨h.1, by rw [h.2.eq]⟩
  refine (walk_onVolumeDelete hi hd).bind hi (fun _ w hi hd => ?_) fun _ _ _ => trivial
  refine (walk_beneath hrevoke hi hd).attempt_bind hi fun r w hi hd => ?_
  split
  · exact walk_fail hi
  · refine (walk_beneath (beneath_calls remote_teardown) hi hd).bind hi (fun _ w hi hd => ?_) fun _ _ _ => trivial
    refine (walk_beneath (beneath_calls (Api.remote_deleteLegs _)) hi hd).bind hi (fun r w hi hd => ?_)
      fun _ _ _ => trivial
    split
    · exact (walk_deletes (fun _ _ hd => beneath_dropVolume hd) hi hd).mono fun _ _ _ => trivial
    · exact walk_fail hi

theorem walk_deleteVolume (hi : StepInv w) : StepSafe t (Api.deleteVolume t name) (fun _ _ => True) w := by
  have henter : StepSafe t (enter (Api.deletable name) fun _ => { task := t, deletes := [name] })
      (fun x s => ∀ v, x = .ok v → Deleting t name s) w := by
    refine Safe.step stable_always (fun s i hi _ _ _ => ?_) hi trivial
    dsimp only
    split
    · have hal : Aloof t s { s with undertakings := s.undertakings ++ [{ task := t, deletes := [name] }] } :=
        aloof_undertake rfl
      refine ⟨hal.inv hi, hal.guar, Safe.ret stable_deleting (fun _ _ h _ _ => h) (hal.inv hi) ⟨{ task := t, deletes := [name] }, ?_, rfl⟩⟩
      exact List.mem_filter.mpr ⟨List.mem_append_right _ (List.mem_singleton_self _), decide_eq_true rfl⟩
    · exact ⟨hi, (Aloof.refl s).guar, Safe.fail stable_always (fun _ _ _ _ h => nomatch h) hi trivial⟩
  exact henter.bind hi (fun vol _ hi hd => walk_takeDown hi (hd vol rfl)) fun _ _ _ => trivial

/-! ## Every operation -/

theorem walk_ignore {task : Async α} (ht : task.Only (Aloof t)) (hi : StepInv w) :
    StepSafe t (do let _ ← task) (fun _ _ => True) w :=
  walk_aloof (ht.bind fun _ => trivial) hi

theorem walk_program (op : VolumeOp) (hi : StepInv w) : StepSafe t (program cfg t op) (fun _ _ => True) w := by
  cases op with
  | create req => exact walk_tracked (walk_createVolume hi) hi
  | snapshot name volumeId => exact walk_aloof (aloof_tracked aloof_createSnapshot) hi
  | group name volumeIds => exact walk_aloof (aloof_tracked aloof_createGroup) hi
  | restore volume point name => exact walk_aloof (aloof_tracked aloof_restore) hi
  | policy name body => exact walk_aloof aloof_putPolicy hi
  | backups => exact walk_backups hi
  | delete name => exact walk_tracked (walk_deleteVolume hi) hi
  | assemble name => exact walk_assembleVolume hi
  | retryAssembly name => exact walk_retryAssembly hi
  | publish name => exact walk_ignore aloof_publish hi
  | recreateExport name => exact walk_ignore aloof_recreateExport hi
  | serveHost name host dhchap => exact walk_ignore aloof_serveHost hi
  | withdrawHost name host => exact walk_ignore aloof_withdrawHost hi
  | republishOn node => exact walk_aloof aloof_republishOn hi
  | move name «from» «to» => exact (walk_startReplacement hi).bind hi (fun _ _ hi _ => walk_ret hi) fun _ _ _ => trivial
  | prestage name node «from» c => exact (walk_prestage hi).bind hi (fun _ _ hi _ => walk_ret hi) fun _ _ _ => trivial
  | rebalance active => exact walk_rebalance hi
  | recover enabled => exact walk_recover hi
  | finish name => exact walk_finishReplacement hi
  | rejoinHeads => exact walk_aloof aloof_rejoinHeads hi
  | reassembleHeads => exact walk_reassembleHeads hi
  | reapOrphans => exact walk_aloof aloof_reapOrphans hi
  | fence name expected => exact walk_ignore aloof_fence hi
  | promote name target epoch => exact walk_promote hi
  | «export» name body => exact walk_ignore aloof_exportVolume hi
  | expand name «to» => exact walk_expand hi
  | deleteSnapshot id => exact walk_aloof aloof_deleteSnapshot hi
  | deleteGroup id => exact walk_aloof aloof_deleteGroup hi
  | stopBackup name purged => exact walk_aloof aloof_stop hi
  | deletePoint volume point => exact walk_aloof aloof_deletePoint hi
  | bandwidthClass name c => exact walk_aloof aloof_setBandwidthClass hi
  | pendingRates => exact walk_aloof aloof_retryPendingRates hi
  | openWindow name target ttl => exact walk_ignore aloof_openWindow hi
  | closeWindow name epoch outcome => exact walk_closeWindow hi
  | expireWindows => exact walk_aloof aloof_expireWindows hi
  | reapStaleHeads => exact walk_aloof aloof_reapStaleHeads hi
  | rehead active => exact walk_reheadLost hi
  | migrate name «to» => exact walk_aloof aloof_migrate hi
  | cancelMigration name => exact walk_aloof aloof_cancelMigration hi
  | migrations active => exact walk_migrations hi

end

/-! ## Every step -/

/-- Nodes come, go and change beside the operations. -/
theorem walk_nodes {w : AppState} (nodes : KeyMap Node) (hi : StepInv w) :
    StepInv (w.setFed fun fed => { fed with nodes := nodes }) ∧
      StepGuar none w (w.setFed fun fed => { fed with nodes := nodes }) := by
  have hseen : (w.setFed fun fed => { fed with nodes := nodes }).seen = w.seen := rfl
  refine ⟨⟨hi.named, hi.handed, hi.once⟩, fun n t _ h => ⟨h, .of_seen hseen n⟩, fun _ _ => rfl, ?_, fun h => (h rfl).elim⟩
  exact ⟨.unseen hseen, List.Subset.refl _, List.Subset.refl _, List.Subset.refl _⟩

/-- Nothing is under way. -/
structure Resting (w : AppState) : Prop where
  named : Named w.fed
  spawned : w.spawned = []
  copies : w.copies = ∅
  undertakings : w.undertakings = []

theorem Resting.stepInv {w : AppState} (h : Resting w) : StepInv w where
  named := h.named
  handed := by simp [h.spawned]
  once := by simp [h.spawned]

section

variable {cfg : Config} {ops : VolumeOp → Prop} {ok : AppState → AppState → Prop} {p₀ p p' : Pool Reply AppState Fault}

theorem kept_run (h₀ : StepInv p₀.state) (ht : p₀.tasks = []) (h : (operations cfg ops).Run ok p₀ p) :
    System.Run.Kept stepDiscipline p :=
  (h.mono fun _ _ _ => trivial).safe (fun _ (op : { op // ops op }) _ hi => walk_program op.1 hi)
    (fun nodes _ hi _ => walk_nodes nodes hi) h₀ ht

/-- Every step of every run, of a task or of the nodes. -/
theorem does_step {m : Move Reply (operations cfg ops).Op (operations cfg ops).Env} (h₀ : StepInv p₀.state)
    (ht : p₀.tasks = []) (h : (operations cfg ops).Run ok p₀ p) (hm : (operations cfg ops).step p m = some p') :
    p'.state = p.state ∨ ∃ u, StepGuar u p.state p'.state := by
  have hk := kept_run h₀ ht h
  obtain ⟨-, -, he | ⟨u, -, hg⟩⟩ := System.Run.kept_step (fun op : { op // ops op } => walk_program op.1 hk.1)
    (fun nodes _ hi _ => walk_nodes nodes hi) hk hm trivial
  · exact .inl he
  · exact .inr ⟨u, hg⟩

/-- What every step keeps holds in every state of every run. -/
theorem keeps_run {J : AppState → Prop} (h₀ : StepInv p₀.state) (ht : p₀.tasks = []) (hJ : J p₀.state)
    (hstep : ∀ w w' u, StepInv w → ok w w' → StepGuar u w w' → J w → J w')
    (h : (operations cfg ops).Run ok p₀ p) : J p.state := by
  induction h with
  | refl => exact hJ
  | step m h hm hok ih =>
    rcases does_step h₀ ht h hm with he | ⟨u, hg⟩
    · rwa [he]
    · exact hstep _ _ u (kept_run h₀ ht h).1 hok hg ih

end

end StormStorage
