import StormStorage.Await.Crash
import StormStorage.Proof.Noted
import StormStorage.Proof.VmMigrate
import StormStorage.Proof.Volumes.Degraded

/-!
# A start that fails

A start that fails undoes what it made on the target from what the migration's
record says of it (`undoMade`). It leaves nothing exactly where each create and
each mirror that an engine carried out was answered (`start_undone_iff`): the id
of a volume whose create was not answered is nowhere, and a mirror is not
stopped.

* `Unleft`, `Learnt`: what is left, and what was answered;
* `Begun`, `Failed`: the record of a migration while its first steps are taken;
* `advance_failed`, `undoMade_tells`: the steps, and their undoing.
-/

namespace StormStorage.VmMigrate

open Await Task

/-! ## What a stretch of a start shows -/

/-- The volume that the task's create made in this step. -/
def made (me : Nat) (m : Moment Reply AppState) : Option EngineVolume :=
  match m.after.engines.drop m.before.engines.length with
  | [v] => if v.maker = some me then some v else none
  | _ => none

def volumesMade (me : Nat) (tr : List (Moment Reply AppState)) : List EngineVolume := tr.filterMap (made me)

/-- An engine carried out a delete of this volume. -/
def Deleted (tr : List (Moment Reply AppState)) (node volume : String) : Prop :=
  ∃ m ∈ tr, ∃ id copy, noted m = [.copyDeleted id copy node volume]

/-- An engine began to mirror a volume. -/
def Mirrors (m : Moment Reply AppState) : Prop := ∃ node volume target, noted m = [.mirroring node volume target]

/-- The mirrors that run after one more step. -/
def mirrorsAfter (running : List (String × String)) (m : Moment Reply AppState) : List (String × String) :=
  match noted m with
  | [.mirroring node volume _] => (node, volume) :: running
  | [.mirrorStopped node volume] => running.filter (· ≠ (node, volume))
  | _ => running

/-- The mirrors that were begun and not stopped. -/
def mirrorsLeft (tr : List (Moment Reply AppState)) : List (String × String) := tr.foldl mirrorsAfter []

/-- A migration is opened, under this id. -/
def Opens (m : Moment Reply AppState) (id : String) : Prop :=
  m.after.seq = m.before.seq + 1 ∧ m.after.fed.revision = m.before.fed.revision + 1 ∧
    id = VmMigration.newId m.reply.now m.before.seq

/-- Nothing that the task made is left: no volume, no mirror, no record. -/
structure Unleft (me : Nat) (tr : List (Moment Reply AppState)) : Prop where
  volumes : ∀ v ∈ volumesMade me tr, Deleted tr v.node v.id
  mirrors : mirrorsLeft tr = []
  records : ∀ id, (∃ m ∈ tr, Opens m id) → ∀ m, tr.getLast? = some m → m.after.fed.vmMigrations[id]? = none

/-- Every create that made a volume was answered with its id, and every mirror
that was begun was answered. -/
def Learnt (me : Nat) (tr : List (Moment Reply AppState)) : Prop :=
  ∀ m ∈ tr, (made me m ≠ none → m.reply.names = true) ∧ (Mirrors m → m.reply.wire = .answered)

/-- The others leave the record of a migration alone that this task opened: it
holds the migration's claim. -/
def LetBe (tr : List (Moment Reply AppState)) (w : AppState) : Prop :=
  ∀ m id, tr.getLast? = some m → (∃ m₀ ∈ tr, Opens m₀ id) →
    w.fed.vmMigrations[id]? = m.after.fed.vmMigrations[id]?

/-- The target's engine is known and answers. -/
def Replies (target : String) (m : Moment Reply AppState) : Prop :=
  m.reply.wire = .answered ∧ engineOn m.before.fed target = .ok ()

/-- The engine of the target answers the undo. -/
def UndoAnswered (tr : List (Moment Reply AppState)) : Prop :=
  ∀ tr₁ m tr₂ id r, tr = tr₁ ++ m :: tr₂ → noted m = [.undoing id] → m.before.fed.vmMigrations[id]? = some r →
    ∀ m' ∈ tr₂, Replies r.targetNode m'

/-! ## Steps that show nothing -/

/-- Neither a volume nor a mirror nor a record is made in the step. -/
structure Idles (me : Nat) (m : Moment Reply AppState) : Prop where
  made : made me m = none
  mirrors : ∀ running, mirrorsAfter running m = running
  begins : ¬ Mirrors m
  opens : ∀ id, ¬ Opens m id

section

variable {me : Nat} {tr : List (Moment Reply AppState)} {m : Moment Reply AppState}

theorem volumesMade_append : volumesMade me (tr ++ [m]) = volumesMade me tr ++ (made me m).toList := by
  rw [volumesMade, List.filterMap_append, List.filterMap_cons, List.filterMap_nil]
  cases made me m <;> rfl

theorem mirrorsLeft_append : mirrorsLeft (tr ++ [m]) = mirrorsAfter (mirrorsLeft tr) m := by
  rw [mirrorsLeft, List.foldl_append]
  rfl

theorem forall_mem_append {p : Moment Reply AppState → Prop} : (∀ x ∈ tr ++ [m], p x) ↔ (∀ x ∈ tr, p x) ∧ p m := by
  simp [or_imp, forall_and]

theorem learnt_append : Learnt me (tr ++ [m]) ↔
    Learnt me tr ∧ (made me m ≠ none → m.reply.names = true) ∧ (Mirrors m → m.reply.wire = .answered) :=
  forall_mem_append

theorem made_same (h : m.after.engines.length = m.before.engines.length) : made me m = none := by
  rw [made, List.drop_of_length_le (by omega)]

theorem idles_of_noted (hm : made me m = none) (hs : m.after.seq = m.before.seq)
    (hn : ∀ node volume target, noted m ≠ [.mirroring node volume target])
    (hn' : ∀ node volume, noted m ≠ [.mirrorStopped node volume]) : Idles me m where
  made := hm
  mirrors running := by
    unfold mirrorsAfter
    split
    · exact absurd ‹_› (hn _ _ _)
    · exact absurd ‹_› (hn' _ _)
    · rfl
  begins := fun ⟨_, _, _, h⟩ => hn _ _ _ h
  opens id h := by
    have := h.1
    omega

/-- A step that leaves engines and the log alone, and opens nothing. -/
theorem idles_of_eq (he : m.after.engines = m.before.engines) (hl : m.after.log = m.before.log)
    (hs : m.after.seq = m.before.seq) : Idles me m := by
  have hn := noted_same hl
  refine idles_of_noted (made_same (by rw [he])) hs (fun _ _ _ h => ?_) fun _ _ h => ?_
  · rw [hn] at h
    cases h
  · rw [hn] at h
    cases h

theorem Idles.learnt (h : Idles me m) : Learnt me (tr ++ [m]) ↔ Learnt me tr := by
  rw [learnt_append]
  exact and_iff_left ⟨fun hm => absurd h.made hm, fun hm => absurd hm h.begins⟩

theorem Idles.volumesMade (h : Idles me m) : volumesMade me (tr ++ [m]) = volumesMade me tr := by
  rw [volumesMade_append, h.made]
  exact List.append_nil _

theorem Idles.mirrorsLeft (h : Idles me m) : mirrorsLeft (tr ++ [m]) = mirrorsLeft tr := by
  rw [mirrorsLeft_append, h.mirrors]

theorem Idles.opened (h : Idles me m) {id : String} : (∃ x ∈ tr ++ [m], Opens x id) ↔ ∃ x ∈ tr, Opens x id := by
  simp [or_and_right, exists_or, h.opens]

end

/-! ## The record while its first steps are taken -/

/-- The record is starting, with these ids of the target's volume. -/
def Stands (id target : String) (vid loc : Option String) (w : AppState) : Prop :=
  ∃ r, w.fed.vmMigrations[id]? = some r ∧ r.id = id ∧ r.state = .starting ∧ r.aborting = false ∧
    r.targetNode = target ∧ r.targetVolumeId = vid ∧ r.targetLocalId = loc

/-- A migration was opened, and its first steps are being taken. -/
structure Begun (id target : String) (vid loc : Option String) (tr : List (Moment Reply AppState)) : Prop where
  opened : ∃ m ∈ tr, Opens m id
  sole : ∀ m ∈ tr, ∀ j, Opens m j → j = id
  stands : ∀ m, tr.getLast? = some m → Stands id target vid loc m.after
  forward : ∀ m ∈ tr, (∀ j c n v, noted m ≠ [.copyDeleted j c n v]) ∧ ∀ j, noted m ≠ [.undoing j]

/-- All that was made is known. -/
structure AllTold (me : Nat) (target : String) (vid : Option String) (tr : List (Moment Reply AppState)) : Prop where
  learnt : Learnt me tr
  mirrors : mirrorsLeft tr = []
  volumes : ∀ v ∈ volumesMade me tr, v.node = target ∧ vid = some v.id

/-- What a failed step leaves: all is known, or what is not known is left. -/
def Verdict (me : Nat) (target : String) (vid loc : Option String) (tr : List (Moment Reply AppState)) : Prop :=
  AllTold me target vid tr ∨
    ¬ Learnt me tr ∧ (mirrorsLeft tr ≠ [] ∨ volumesMade me tr ≠ [] ∧ vid = none ∧ loc = none)

/-- The first steps failed. -/
def Failed (me : Nat) (id target : String) (tr : List (Moment Reply AppState)) : Prop :=
  ∃ vid loc, Begun id target vid loc tr ∧ Verdict me target vid loc tr

section

variable {me : Nat} {id target : String} {vid loc vid' loc' : Option String} {tr : List (Moment Reply AppState)}
  {m : Moment Reply AppState} {w : AppState}

theorem Begun.now (h : Begun id target vid loc tr) (hs : LetBe tr w) : Stands id target vid loc w := by
  obtain ⟨x, hx, ho⟩ := h.opened
  obtain ⟨m, hm⟩ := Option.isSome_iff_exists.mp (List.getLast?_isSome.mpr (List.ne_nil_of_mem hx))
  obtain ⟨r, hr, hrest⟩ := h.stands m hm
  exact ⟨r, (hs m id hm ⟨x, hx, ho⟩).trans hr, hrest⟩

/-- One more step, which opens nothing and deletes nothing. -/
theorem Begun.step (h : Begun id target vid loc tr) (ho : ∀ j, ¬ Opens m j)
    (hn : (∀ j c n v, noted m ≠ [.copyDeleted j c n v]) ∧ ∀ j, noted m ≠ [.undoing j])
    (hst : Stands id target vid' loc' m.after) : Begun id target vid' loc' (tr ++ [m]) where
  opened := by
    obtain ⟨x, hx, hxo⟩ := h.opened
    exact ⟨x, List.mem_append_left _ hx, hxo⟩
  sole := forall_mem_append.mpr ⟨h.sole, fun j hj => absurd hj (ho j)⟩
  stands x hx := by
    rw [List.getLast?_concat] at hx
    exact Option.some.inj hx ▸ hst
  forward := forall_mem_append.mpr ⟨h.forward, hn⟩

theorem forward_of_same (hl : m.after.log = m.before.log) :
    (∀ j c n v, noted m ≠ [.copyDeleted j c n v]) ∧ ∀ j, noted m ≠ [.undoing j] := by
  rw [noted_same hl]
  exact ⟨fun _ _ _ _ => by simp, fun _ => by simp⟩

theorem AllTold.idle (h : AllTold me target vid tr) (hi : Idles me m) : AllTold me target vid (tr ++ [m]) where
  learnt := hi.learnt.mpr h.learnt
  mirrors := hi.mirrorsLeft.trans h.mirrors
  volumes := by
    rw [hi.volumesMade]
    exact h.volumes

/-- Nothing was made, whatever its id. -/
theorem AllTold.anything (h : AllTold me target none tr) : AllTold me target vid tr :=
  ⟨h.learnt, h.mirrors, fun v hv => nomatch (h.volumes v hv).2⟩

/-- A step that leaves the state alone. -/
theorem Begun.quiet (h : Begun id target vid loc tr) (hk : AllTold me target vid' tr) (i : Reply) (hs : LetBe tr w) :
    Begun id target vid loc (tr ++ [⟨i, w, w⟩]) ∧ AllTold me target vid' (tr ++ [⟨i, w, w⟩]) := by
  have hi : Idles me (⟨i, w, w⟩ : Moment Reply AppState) := idles_of_eq rfl rfl rfl
  exact ⟨h.step hi.opens (forward_of_same rfl) (h.now hs), hk.idle hi⟩

/-- What follows a phase that leaves the state alone. -/
theorem quiet_tells {α β : Type} {t : Async α} {f : α → Async β} {R : Except Fault β → List (Moment Reply AppState) → Prop}
    (ht : t.Quiet) (h : Begun id target vid loc tr) (hk : AllTold me target vid' tr)
    (hf : ∀ a tr, Begun id target vid loc tr → AllTold me target vid' tr → (f a).Tells LetBe R tr)
    (hr : ∀ e tr, Begun id target vid loc tr → AllTold me target vid' tr → R (.error e) tr) :
    (t.bind f).Tells LetBe R tr := by
  refine Tells.only_bind (P := fun tr => Begun id target vid loc tr ∧ AllTold me target vid' tr) ht
    (fun tr i w w' hp hs he => ?_) (fun a tr hp => hf a tr hp.1 hp.2) (fun e tr hp => hr e tr hp.1 hp.2) ⟨h, hk⟩
  obtain rfl := he
  exact hp.1.quiet hp.2 i hs

/-- A call: refused, carried out without an answer, or answered. -/
theorem tells_call {α : Type} {env : List (Moment Reply AppState) → AppState → Prop}
    {Q : Except Fault α → List (Moment Reply AppState) → Prop} {eff : Reply → AppState → AppState}
    {answer : Reply → AppState → Except Fault α}
    (hrefused : ∀ i w e, env tr w → i.wire ≠ .answered → Q (.error e) (tr ++ [⟨i, w, w⟩]))
    (hlost : ∀ i w e, env tr w → i.wire ≠ .answered → Q (.error e) (tr ++ [⟨i, w, eff i w⟩]))
    (hanswered : ∀ i w, env tr w → i.wire = .answered → Q (answer i w) (tr ++ [⟨i, w, eff i w⟩])) :
    (call eff answer).Tells env Q tr := by
  intro i w hs _
  cases hw : i.wire with
  | refused status why =>
    simp only [hw, Wire.effect]
    exact hrefused i w _ hs (by simp [hw])
  | lost why =>
    simp only [hw, Wire.effect]
    exact hlost i w _ hs (by simp [hw])
  | answered =>
    simp only [hw, Wire.effect]
    exact tells_ofExcept (hanswered i w hs hw)

theorem tells_withContext {α : Type} {what : String} {t : Async α} {env : List (Moment Reply AppState) → AppState → Prop}
    {Q : α → List (Moment Reply AppState) → Prop} {E : List (Moment Reply AppState) → Prop}
    (h : t.Tells env (Task.Outcome Q E) tr) : (withContext what t).Tells env (Task.Outcome Q E) tr := by
  refine h.attempt_bind fun x tr hx => ?_
  cases x with
  | ok a => exact hx
  | error e => exact hx

/-! ## The steps -/

/-- A change of the record. -/
theorem update_tells (vid' loc' : Option String) {β : Type} {f : VmMigration → VmMigration} {g : Option VmMigration → Async β}
    {R : Except Fault β → List (Moment Reply AppState) → Prop} (h : Begun id target vid loc tr)
    (hk : AllTold me target vid' tr)
    (hf : ∀ r, r.state = .starting → r.targetVolumeId = vid → r.targetLocalId = loc → (f r).id = r.id ∧
      (f r).state = r.state ∧ (f r).aborting = r.aborting ∧ (f r).targetNode = r.targetNode ∧
      (f r).targetVolumeId = vid' ∧ (f r).targetLocalId = loc')
    (hg : ∀ o tr, Begun id target vid' loc' tr → AllTold me target vid' tr → (g o).Tells LetBe R tr) :
    ((update id f).bind g).Tells LetBe R tr := by
  refine fun i w hs _ => ?_
  obtain ⟨r, hr, hid, hst, hab, htn, hv, hl⟩ := h.now hs
  have hi : Idles me (⟨i, w, w.revise fun fed =>
      { fed with vmMigrations := fed.vmMigrations.insert id { f r with updatedAtMs := i.now } }⟩ :
      Moment Reply AppState) := idles_of_eq rfl rfl rfl
  obtain ⟨hfi, hfs, hfa, hft, hfv, hfl⟩ := hf r hst hv hl
  simp only [hr]
  refine hg _ _ (h.step hi.opens (forward_of_same rfl) ?_) (hk.idle hi)
  refine ⟨{ f r with updatedAtMs := i.now }, ?_, hfi.trans hid, hfs.trans hst, hfa.trans hab, hft.trans htn, hfv, hfl⟩
  show (w.fed.vmMigrations.insert id _)[id]? = _
  rw [KeyMap.get_insert, if_pos rfl]

/-- What a create on the target does there. -/
def created (me : Nat) (target name : String) (i : Reply) (w : AppState) : AppState :=
  let w' := w.createOn me target name false i.made
  if i.names then w'.told target name (w.createdId target name i.made)
  else w'.noteLeft .unanswered fun e => e.node = target ∧ w.given target e.id = false

theorem createOn_calm (name : String) (i : Reply) (w : AppState) :
    (w.createOn me target name false i.made).log = w.log ∧ (w.createOn me target name false i.made).seq = w.seq ∧
      (w.createOn me target name false i.made).fed = w.fed := by
  unfold AppState.createOn
  split
  · exact ⟨rfl, rfl, rfl⟩
  · split <;> exact ⟨rfl, rfl, rfl⟩

theorem created_calm (name : String) (i : Reply) (w : AppState) :
    ((created me target name i w).log = w.log ∨ ∃ why e, (created me target name i w).log = w.log ++ [.left why e]) ∧
      (created me target name i w).seq = w.seq ∧ (created me target name i w).fed = w.fed := by
  obtain ⟨hl, hs, hf⟩ := @createOn_calm me target name i w
  unfold created
  dsimp only
  split
  · exact ⟨.inl hl, hs, hf⟩
  · unfold AppState.noteLeft
    split
    · exact ⟨.inr ⟨_, _, congrArg (· ++ [_]) hl⟩, hs, hf⟩
    · exact ⟨.inl hl, hs, hf⟩

theorem engines_noteLeft (w : AppState) (why : Left) (p : EngineVolume → Bool) : (w.noteLeft why p).engines = w.engines := by
  unfold AppState.noteLeft
  split <;> rfl

/-- A create makes the volume whose id it answers, or none. -/
theorem created_made (name : String) (i : Reply) (w : AppState) {m : Moment Reply AppState} (hb : m.before = w)
    (ha : m.after = created me target name i w) :
    made me m = none ∨ ∃ v, made me m = some v ∧ v.node = target ∧ w.createdId target name i.made = some v.id := by
  have he : m.after.engines = (w.createOn me target name false i.made).engines := by
    rw [ha]
    unfold created
    dsimp only
    split
    · rfl
    · exact engines_noteLeft _ _ _
  unfold AppState.createOn at he
  cases hv : w.volumeOn target name with
  | some e =>
    rw [hv] at he
    refine .inl (made_same ?_)
    rw [he, hb]
    exact List.length_map _
  | none =>
    simp only [hv] at he
    split at he
    · exact .inl (made_same (by rw [he, hb]))
    · rename_i hg
      refine .inr ⟨{ node := target, name := name, id := i.made, leg := false, maker := some me }, ?_, rfl, ?_⟩
      · rw [made, he, hb, List.drop_left]
        exact if_pos rfl
      · unfold AppState.createdId
        simp [hv, hg]

theorem stands_of_fed {w' : AppState} (h : w'.fed = w.fed) (hs : Stands id target vid loc w) :
    Stands id target vid loc w' := by
  rwa [Stands, h]

/-- The step of a create that an engine carried out. -/
theorem Begun.create (h : Begun id target none none tr) (hk : AllTold me target none tr) (name : String) (i : Reply)
    (hs : LetBe tr w) :
    Begun id target none none (tr ++ [⟨i, w, created me target name i w⟩]) ∧
      (AllTold me target none (tr ++ [⟨i, w, created me target name i w⟩]) ∨
        ∃ x, w.createdId target name i.made = some x ∧
          (i.names = true → AllTold me target (some x) (tr ++ [⟨i, w, created me target name i w⟩])) ∧
          (i.names = false → Verdict me target none none (tr ++ [⟨i, w, created me target name i w⟩]))) := by
  obtain ⟨hlog, hseq, hfed⟩ := @created_calm me target name i w
  generalize hm : (⟨i, w, created me target name i w⟩ : Moment Reply AppState) = m
  have hafter : m.after = created me target name i w := by rw [← hm]
  have hbefore : m.before = w := by rw [← hm]
  have hreply : m.reply = i := by rw [← hm]
  have hnoted : noted m = [] ∨ ∃ why e, noted m = [.left why e] := by
    rcases hlog with hl | ⟨why, e, hl⟩
    · exact .inl (noted_same (by rw [hafter, hbefore, hl]))
    · exact .inr ⟨why, e, noted_note (by rw [hafter, hbefore, hl])⟩
  have hother : ∀ e, (∀ why v, e ≠ .left why v) → noted m ≠ [e] := by
    rintro e he hn
    rcases hnoted with h | ⟨why, v, h⟩
    · rw [h] at hn
      cases hn
    · rw [h] at hn
      exact he why v (List.cons.inj hn).1.symm
  have hopens : ∀ j, ¬ Opens m j := by
    rintro j ⟨ho, -⟩
    rw [hafter, hbefore, hseq] at ho
    omega
  have hidle : made me m = none → Idles me m := fun hn => idles_of_noted hn (by rw [hafter, hbefore, hseq])
    (fun _ _ _ => hother _ (by simp)) fun _ _ => hother _ (by simp)
  refine ⟨h.step hopens ⟨fun _ _ _ _ => hother _ (by simp), fun _ => hother _ (by simp)⟩
    (hafter ▸ stands_of_fed hfed (h.now hs)), ?_⟩
  rcases created_made name i w hbefore hafter with hn | ⟨v, hv, hnode, hid⟩
  · exact .inl (hk.idle (hidle hn))
  · have hbegins : ¬ Mirrors m := fun ⟨_, _, _, hn⟩ => hother _ (by simp) hn
    have hmirrors : mirrorsLeft (tr ++ [m]) = [] := by
      rw [mirrorsLeft_append, hk.mirrors]
      unfold mirrorsAfter
      split
      · exact absurd ‹_› (hother _ (by simp))
      · exact absurd ‹_› (hother _ (by simp))
      · rfl
    have hnone : volumesMade me tr = [] :=
      List.eq_nil_iff_forall_not_mem.mpr fun x hx => nomatch (hk.volumes x hx).2
    have hmade : volumesMade me (tr ++ [m]) = [v] := by rw [volumesMade_append, hnone, hv]; rfl
    refine .inr ⟨v.id, hid, fun hnames => ⟨?_, hmirrors, ?_⟩, fun hnames => .inr ⟨fun hl => ?_, .inr ⟨?_, rfl, rfl⟩⟩⟩
    · exact learnt_append.mpr ⟨hk.learnt, fun _ => hreply ▸ hnames, fun hb => absurd hb hbegins⟩
    · rw [hmade]
      intro y hy
      obtain rfl := List.mem_singleton.mp hy
      exact ⟨hnode, rfl⟩
    · have := (learnt_append.mp hl).2.1 (by rw [hv]; simp)
      rw [hreply, hnames] at this
      cases this
    · rw [hmade]
      simp

/-- The create on the target. -/
theorem createVolume_tells (h : Begun id target none none tr) (hk : AllTold me target none tr) (name : String) :
    (Engine.createVolume me target name false).Tells LetBe (Task.Outcome
      (fun v tr => Begun id target none none tr ∧ (∀ x, v.id = some x → AllTold me target (some x) tr) ∧
        (v.id = none → Verdict me target none none tr))
      fun tr => Begun id target none none tr ∧ Verdict me target none none tr) tr := by
  refine tells_call (fun i w e hs _ => ?_) (fun i w e hs hw => ?_) fun i w hs hw => ?_
  · obtain ⟨h', hk'⟩ := h.quiet hk i hs
    exact ⟨h', .inl hk'⟩
  · have hdone := h.create hk name i hs
    have hnames : i.names = false := by
      unfold Reply.names
      split
      · exact absurd ‹_› hw
      · rfl
    exact ⟨hdone.1, hdone.2.elim .inl fun ⟨_, _, _, hv⟩ => hv hnames⟩
  · have hdone := h.create hk name i hs
    have hnames : i.names = i.item.id.isSome := by
      unfold Reply.names
      rw [hw]
    show Task.Outcome _ _ _ (tr ++ [⟨i, w, created me target name i w⟩])
    generalize tr ++ [(⟨i, w, created me target name i w⟩ : Moment Reply AppState)] = tr' at hdone ⊢
    obtain ⟨hbegun, hdone⟩ := hdone
    cases hc : w.createdId target name i.made with
    | none =>
      refine ⟨hbegun, hdone.elim .inl fun ⟨x, hx, _⟩ => ?_⟩
      rw [hc] at hx
      cases hx
    | some x =>
      refine ⟨hbegun, fun y hy => ?_, fun hn => ?_⟩
      · obtain ⟨z, hi, rfl⟩ := Option.map_eq_some_iff.mp (show i.item.id.map (fun _ => x) = some y from hy)
        have hitem : i.item.id.isSome = true := by rw [hi]; rfl
        rcases hdone with hk' | ⟨z, hz, hk', -⟩
        · exact hk'.anything
        · obtain rfl := Option.some.inj (hc.symm.trans hz)
          exact hk' (hnames.trans hitem)
      · have hitem : i.item.id = none := by simpa using hn
        rcases hdone with hk' | ⟨z, -, -, hv⟩
        · exact .inl hk'
        · exact hv (by rw [hnames, hitem]; rfl)

/-- T's volume, unless a step fails. -/
theorem makeTarget_tells {r : VmMigration} (hid : r.id = id) (ht : r.targetNode = target) (hr : r.targetVolumeId = none)
    (h : Begun id target none none tr) (hk : AllTold me target none tr) :
    (makeTarget me r).Tells LetBe (Task.Outcome (fun _ tr => ∃ vid, Begun id target vid none tr ∧ AllTold me target vid tr)
      (Failed me id target)) tr := by
  subst hid ht
  have hfail : ∀ tr, Begun r.id r.targetNode none none tr → Verdict me r.targetNode none none tr →
      Failed me r.id r.targetNode tr := fun tr h hv => ⟨none, none, h, hv⟩
  unfold makeTarget
  rw [hr]
  refine Tells.bind (tells_withContext (createVolume_tells h hk _)) (fun v tr hv => ?_) fun e tr he => hfail tr he.1 he.2
  split
  · exact hfail tr hv.1 (hv.2.2 ‹_›)
  · rename_i x hx
    exact update_tells (some x) none hv.1 (hv.2.1 x hx)
      (fun r hst _ hl => ⟨rfl, rfl, rfl, rfl, rfl, hl⟩) fun o tr h hk => ⟨some x, h, hk⟩

theorem Begun.failed (h : Begun id target vid loc tr) (hk : AllTold me target vid tr) : Failed me id target tr :=
  ⟨vid, loc, h, .inl hk⟩

theorem findLocal_tells {r : VmMigration} (hid : r.id = id) (hr : r.targetLocalId = none)
    (h : Begun id target vid none tr) (hk : AllTold me target vid tr) :
    (findLocal r).Tells LetBe (Task.Outcome (fun _ tr => ∃ loc, Begun id target vid loc tr ∧ AllTold me target vid tr)
      (Failed me id target)) tr := by
  subst hid
  unfold findLocal
  rw [hr]
  refine quiet_tells (quiet_withContext (quiet_localVolumeId _ _) _) h hk (fun l tr h hk => ?_)
    fun _ tr h hk => h.failed hk
  exact update_tells vid (some l) h hk (fun r _ hv _ => ⟨rfl, rfl, rfl, rfl, hv, rfl⟩)
    fun o tr h hk => ⟨some l, h, hk⟩

theorem serveTarget_tells {hostNqnFor : String → String} {r : VmMigration} (hid : r.id = id)
    (h : Begun id target vid loc tr) (hk : AllTold me target vid tr) :
    (serveTarget hostNqnFor r).Tells LetBe (Task.Outcome (fun _ tr => Begun id target vid loc tr ∧ AllTold me target vid tr)
      (Failed me id target)) tr := by
  subst hid
  unfold serveTarget
  split
  · exact ⟨h, hk⟩
  · refine quiet_tells (quiet_withContext (quiet_inquire _) _) h hk (fun a tr h hk => ?_) fun _ tr h hk => h.failed hk
    exact update_tells vid loc h hk (fun r _ hv hl => ⟨rfl, rfl, rfl, rfl, hv, hl⟩) fun o tr h hk => ⟨h, hk⟩

/-- The source's mirror: one that is begun without an answer is left. -/
theorem startMirror_tells {r : VmMigration} {uri : String} (h : Begun id target vid loc tr)
    (hk : AllTold me target vid tr) :
    (startMirror r uri).Tells LetBe (Task.Outcome (fun _ _ => True) (Failed me id target)) tr := by
  refine quiet_tells (quiet_engine _) h hk (fun _ tr h hk => ?_) fun _ tr h hk => h.failed hk
  refine quiet_tells (Only.attempt (quiet_inquire _)) h hk (fun x tr h hk => ?_) fun _ tr h hk => h.failed hk
  split
  · trivial
  · refine Tells.bind (tells_withContext (Q := fun _ _ => True) (E := Failed me id target) ?_) (fun _ _ _ => trivial)
      fun e tr he => he
    refine tells_call (fun i w e hs _ => ?_) (fun i w e hs hw => ?_) fun i w hs hw => trivial
    · obtain ⟨h', hk'⟩ := h.quiet hk i hs
      exact h'.failed hk'
    · generalize hm : (⟨i, w, w.note (.mirroring r.sourceNode r.sourceVolumeId uri)⟩ : Moment Reply AppState) = m
      have hn : noted m = [.mirroring r.sourceNode r.sourceVolumeId uri] := noted_note (by rw [← hm]; rfl)
      have hopens : ∀ j, ¬ Opens m j := by
        rintro j ⟨ho, -⟩
        rw [← hm] at ho
        exact absurd ho (Nat.ne_of_lt (Nat.lt_succ_self _))
      have hother : ∀ e, e ≠ .mirroring r.sourceNode r.sourceVolumeId uri → noted m ≠ [e] := by
        intro e he hne
        rw [hn] at hne
        exact he (List.cons.inj hne).1.symm
      refine ⟨vid, loc, h.step hopens ⟨fun _ _ _ _ => hother _ (by simp), fun _ => hother _ (by simp)⟩ ?_,
        .inr ⟨fun hl => ?_, .inl ?_⟩⟩
      · rw [← hm]
        exact stands_of_fed rfl (h.now hs)
      · have := (learnt_append.mp hl).2.2 ⟨_, _, _, hn⟩
        rw [← hm] at this
        exact hw this
      · rw [mirrorsLeft_append, mirrorsAfter, hn]
        simp

/-- The first steps of a migration: all is known where one fails, or what is not
known is left. -/
theorem advance_failed {hostNqnFor : String → String} (h : Begun id target none none tr) (hk : AllTold me target none tr) :
    (advance hostNqnFor me id).Tells LetBe (Task.Outcome (fun _ _ => True) (Failed me id target)) tr := by
  refine fun i w hs _ => ?_
  obtain ⟨r, hr, hid, hst, hab, htn, hv, hl⟩ := h.now hs
  obtain ⟨h, hk⟩ := h.quiet hk i hs
  subst htn
  simp only [hr]
  show Tells LetBe _ (if r.state ≠ .starting ∨ r.aborting = true then _ else _) _
  rw [if_neg (by simp [hst, hab])]
  refine quiet_tells (quiet_engine _) h hk (fun _ tr h hk => ?_) fun _ tr h hk => h.failed hk
  refine (makeTarget_tells hid rfl hv h hk).bind (fun _ tr ⟨vid, h, hk⟩ => ?_) fun _ _ he => he
  refine (findLocal_tells hid hl h hk).bind (fun _ tr ⟨loc, h, hk⟩ => ?_) fun _ _ he => he
  refine (serveTarget_tells hid h hk).bind (fun a tr ⟨h, hk⟩ => ?_) fun _ _ he => he
  refine (startMirror_tells h hk).bind (fun x tr _ => ?_) fun _ _ he => he
  exact fun _ _ _ _ => trivial

/-! ## The undo -/

/-- Since `tr₁` nothing was made, and `D` if the target's engine answered all. -/
def Undoes (me : Nat) (target : String) (tr₁ : List (Moment Reply AppState))
    (D : List (Moment Reply AppState) → Prop) (tr : List (Moment Reply AppState)) : Prop :=
  ∃ tr₂, tr = tr₁ ++ tr₂ ∧ (∀ m ∈ tr₂, Idles me m) ∧ ((∀ m ∈ tr₂, Replies target m) → D tr)

variable {tr₁ : List (Moment Reply AppState)} {D D' : List (Moment Reply AppState) → Prop}

theorem Undoes.step (h : Undoes me target tr₁ D tr) (hi : Idles me m) (hd : Replies target m → D tr → D' (tr ++ [m])) :
    Undoes me target tr₁ D' (tr ++ [m]) := by
  obtain ⟨tr₂, rfl, hall, hD⟩ := h
  refine ⟨tr₂ ++ [m], List.append_assoc .., forall_mem_append.mpr ⟨hall, hi⟩, fun hr => ?_⟩
  obtain ⟨hr, hm⟩ := forall_mem_append.mp hr
  exact hd hm (hD hr)

theorem Undoes.mono (h : Undoes me target tr₁ D tr) (hd : D tr → D' tr) : Undoes me target tr₁ D' tr := by
  obtain ⟨tr₂, he, hall, hD⟩ := h
  exact ⟨tr₂, he, hall, fun hr => hd (hD hr)⟩

/-- A step of the undo: its failure is an engine's that did not answer. -/
abbrev UndoStep (me : Nat) (target : String) (tr₁ : List (Moment Reply AppState))
    (D : List (Moment Reply AppState) → Prop) : Except Fault Unit → List (Moment Reply AppState) → Prop :=
  Task.Outcome (fun _ => Undoes me target tr₁ D) (Undoes me target tr₁ fun _ => False)

theorem engine_undoes (h : Undoes me target tr₁ D tr) (hD : ∀ tr m, D tr → D (tr ++ [m])) :
    (engine target).Tells LetBe (UndoStep me target tr₁ D) tr := by
  refine fun i w hs _ => tells_ofExcept ?_
  have hi : Idles me (⟨i, w, w⟩ : Moment Reply AppState) := idles_of_eq rfl rfl rfl
  show UndoStep me target tr₁ D (engineOn w.fed target) (tr ++ [⟨i, w, w⟩])
  cases hw : engineOn w.fed target with
  | ok _ => exact h.step hi fun _ => hD _ _
  | error e =>
    show Undoes me target tr₁ (fun _ => False) _
    refine h.step hi fun hr _ => ?_
    cases hw.symm.trans hr.2

theorem unlessGone_undoes {eff : Reply → AppState → AppState} (h : Undoes me target tr₁ D tr)
    (hi : ∀ i w, Idles me (⟨i, w, eff i w⟩ : Moment Reply AppState))
    (hd : ∀ i w, D tr → D' (tr ++ [⟨i, w, eff i w⟩])) :
    (unlessGone (call eff fun _ _ => .ok ())).Tells LetBe (UndoStep me target tr₁ D') tr := by
  refine Tells.attempt_bind (Q := UndoStep me target tr₁ D') (tells_call (fun i w e _ hw => ?_) (fun i w e _ hw => ?_)
    fun i w _ _ => ?_) fun x tr hx => ?_
  · show Undoes me target tr₁ (fun _ => False) _
    exact h.step (idles_of_eq rfl rfl rfl) fun hr _ => hw hr.1
  · show Undoes me target tr₁ (fun _ => False) _
    exact h.step (hi i w) fun hr _ => hw hr.1
  · show Undoes me target tr₁ D' _
    exact h.step (hi i w) fun _ => hd i w
  · cases x with
    | ok _ => exact hx
    | error e =>
      have hx : Undoes me target tr₁ (fun _ => False) tr := hx
      dsimp only
      split
      · exact hx.mono False.elim
      · exact hx

theorem deleted_append {node volume : String} (h : Deleted tr node volume) : Deleted (tr ++ [m]) node volume := by
  obtain ⟨x, hx, hn⟩ := h
  exact ⟨x, List.mem_append_left _ hx, hn⟩

/-- The volume of this id is deleted, if there is one. -/
abbrev Gone (target : String) (vid : Option String) (tr : List (Moment Reply AppState)) : Prop :=
  ∀ v, vid = some v → Deleted tr target v

theorem deleteTarget_undoes {r : VmMigration} (h : Undoes me r.targetNode tr₁ D tr) (volume : Option String)
    (hD : ∀ tr m, D tr → D (tr ++ [m])) :
    (deleteTarget r volume).Tells LetBe (UndoStep me r.targetNode tr₁ fun tr => D tr ∧ Gone r.targetNode volume tr) tr := by
  unfold deleteTarget
  cases volume with
  | none =>
    show Undoes me r.targetNode tr₁ (fun tr => D tr ∧ Gone r.targetNode none tr) tr
    exact h.mono fun hd => ⟨hd, fun _ hv => nomatch hv⟩
  | some v =>
    have hn : ∀ (i : Reply) (w : AppState), noted (⟨i, w, (w.destroyOn r.targetNode v).note
        (.copyDeleted r.id .target r.targetNode v)⟩ : Moment Reply AppState) = [.copyDeleted r.id .target r.targetNode v] :=
      fun i w => noted_note rfl
    refine unlessGone_undoes h (fun i w => ?_) fun i w hd => ⟨hD _ _ hd, fun x hx => ?_⟩
    · refine idles_of_noted (made_same ?_) rfl (fun _ _ _ => ?_) fun _ _ => ?_
      · exact List.length_map _
      · rw [hn]
        simp
      · rw [hn]
        simp
    · obtain rfl := Option.some.inj hx
      exact ⟨_, List.mem_append_right _ (List.mem_singleton.mpr rfl), _, _, hn i w⟩

theorem undoTarget_undoes {r : VmMigration} (h : Undoes me r.targetNode tr₁ (fun _ => True) tr)
    (hr : ¬(r.targetVolumeId.isNone = true ∧ r.targetLocalId.isNone = true)) :
    (undoTarget r).Tells LetBe (UndoStep me r.targetNode tr₁ (Gone r.targetNode r.targetVolumeId)) tr := by
  unfold undoTarget
  rw [if_neg hr]
  refine (engine_undoes h fun _ _ _ => trivial).bind (fun _ tr h => ?_) fun _ _ he => he
  have h : Undoes me r.targetNode tr₁ (fun _ => True) tr := h
  refine Tells.bind (Q := UndoStep me r.targetNode tr₁ fun _ => True) ?_ (fun _ tr h => ?_) fun _ _ he => he
  · unfold withdrawTarget
    split
    · exact unlessGone_undoes h (fun _ _ => idles_of_eq rfl rfl rfl) fun _ _ _ => trivial
    · exact h
  · have h : Undoes me r.targetNode tr₁ (fun _ => True) tr := h
    refine (deleteTarget_undoes h r.targetVolumeId fun _ _ _ => trivial).bind (fun _ tr h => ?_) fun _ _ he => he
    have h : Undoes me r.targetNode tr₁ (fun tr => True ∧ Gone r.targetNode r.targetVolumeId tr) tr := h
    refine (deleteTarget_undoes h r.targetLocalId fun tr m hd => ⟨trivial, fun v hv => ?_⟩).mono fun x tr hx => ?_
    · exact deleted_append (hd.2 v hv)
    · cases x with
      | ok _ =>
        have hx : Undoes me r.targetNode tr₁ (fun tr => (True ∧ Gone r.targetNode r.targetVolumeId tr) ∧
          Gone r.targetNode r.targetLocalId tr) tr := hx
        exact hx.mono fun hd => hd.1.2
      | error e => exact hx

/-! ## A start from its beginning to its end -/

/-- Steps that make nothing change nothing of what was made. -/
theorem idles_all (tr : List (Moment Reply AppState)) {tr₂ : List (Moment Reply AppState)} (h : ∀ m ∈ tr₂, Idles me m) :
    volumesMade me (tr ++ tr₂) = volumesMade me tr ∧ mirrorsLeft (tr ++ tr₂) = mirrorsLeft tr ∧
      (Learnt me (tr ++ tr₂) ↔ Learnt me tr) ∧ ∀ j, (∃ m ∈ tr ++ tr₂, Opens m j) ↔ ∃ m ∈ tr, Opens m j := by
  induction tr₂ generalizing tr with
  | nil => simp
  | cons m tr₂ ih =>
    have hm := h m List.mem_cons_self
    obtain ⟨hv, hl, hk, ho⟩ := ih (tr ++ [m]) fun x hx => h x (List.mem_cons_of_mem _ hx)
    rw [List.append_cons]
    exact ⟨hv.trans hm.volumesMade, hl.trans hm.mirrorsLeft, hk.trans hm.learnt, fun j => (ho j).trans hm.opened⟩

/-- What a start that failed comes to, once it is undone. -/
theorem verdict_unleft {tr₂ : List (Moment Reply AppState)} (h : Begun id target vid loc tr)
    (hv : Verdict me target vid loc tr) (hidle : ∀ m ∈ tr₂, Idles me m)
    (hrecord : ∀ m, (tr ++ tr₂).getLast? = some m → m.after.fed.vmMigrations[id]? = none)
    (hgone : Gone target vid (tr ++ tr₂))
    (hkept : vid = none → loc = none → ∀ m ∈ tr₂, ∀ j c n v, noted m ≠ [.copyDeleted j c n v]) :
    Unleft me (tr ++ tr₂) ↔ Learnt me (tr ++ tr₂) := by
  obtain ⟨hvol, hmir, hlearn, hopen⟩ := idles_all tr hidle
  rcases hv with hk | ⟨hn, hleft⟩
  · refine iff_of_true ⟨fun v hv => ?_, hmir.trans hk.mirrors, fun j hj => ?_⟩ (hlearn.mpr hk.learnt)
    · rw [hvol] at hv
      obtain ⟨hnode, hid⟩ := hk.volumes v hv
      exact hnode ▸ hgone v.id hid
    · obtain ⟨m, hm, ho⟩ := (hopen j).mp hj
      exact h.sole m hm j ho ▸ hrecord
  · refine iff_of_false (fun hu => ?_) (fun hl => hn (hlearn.mp hl))
    rcases hleft with hm | ⟨hm, rfl, rfl⟩
    · exact hm (hmir.symm.trans hu.mirrors)
    · obtain ⟨v, hv⟩ := List.exists_mem_of_ne_nil _ hm
      obtain ⟨m, hm, j, c, hn⟩ := hu.volumes v (hvol ▸ hv)
      rcases List.mem_append.mp hm with hm | hm
      · exact (h.forward m hm).1 _ _ _ _ hn
      · exact hkept rfl rfl m hm _ _ _ _ hn

/-- What a start's failure comes to. -/
abbrev Settles (me : Nat) (tr : List (Moment Reply AppState)) : Prop := UndoAnswered tr → (Unleft me tr ↔ Learnt me tr)

/-- The target's volume is deleted, if its engine answers. -/
theorem undoMade_tells (h : Begun id target vid loc tr) :
    (undoMade id).Tells LetBe (Task.Outcome (fun _ tr' => ∃ u tr₂ r, tr' = tr ++ u :: tr₂ ∧ (∀ m ∈ u :: tr₂, Idles me m) ∧
      noted u = [.undoing id] ∧ u.before.fed.vmMigrations[id]? = some r ∧ r.targetNode = target ∧
      ((∀ m ∈ tr₂, Replies target m) → Gone target vid tr') ∧ (vid = none → loc = none → tr₂ = []))
      fun _ => False) tr := by
  refine fun i w hs _ => ?_
  obtain ⟨r, hr, -, -, -, htn, hv, hl⟩ := h.now hs
  have hn : noted (⟨i, w, w.note (.undoing id)⟩ : Moment Reply AppState) = [.undoing id] := noted_note rfl
  have hu : Idles me (⟨i, w, w.note (.undoing id)⟩ : Moment Reply AppState) :=
    idles_of_noted (made_same rfl) rfl (by simp [hn]) (by simp [hn])
  subst htn hv hl
  simp only [hr]
  show Tells LetBe _ ((undoTarget r).attempt.bind fun _ => .ret ()) _
  by_cases hnone : r.targetVolumeId.isNone = true ∧ r.targetLocalId.isNone = true
  · unfold undoTarget
    rw [if_pos hnone]
    refine ⟨_, [], r, rfl, fun m hm => List.mem_singleton.mp hm ▸ hu, hn, hr, rfl, fun _ v hv => ?_, fun _ _ => rfl⟩
    rw [hv] at hnone
    exact absurd hnone.1 (by simp)
  · have hstart : Undoes me r.targetNode (tr ++ [⟨i, w, w.note (.undoing id)⟩]) (fun _ => True)
        (tr ++ [⟨i, w, w.note (.undoing id)⟩]) :=
      ⟨[], (List.append_nil _).symm, fun m hm => absurd hm List.not_mem_nil, fun _ => trivial⟩
    refine (undoTarget_undoes hstart hnone).attempt_bind fun x tr' hx => ?_
    have hx : Undoes me r.targetNode (tr ++ [⟨i, w, w.note (.undoing id)⟩]) (Gone r.targetNode r.targetVolumeId) tr' := by
      cases x with
      | ok _ => exact hx
      | error e => exact Undoes.mono (D := fun _ => False) hx False.elim
    obtain ⟨tr₂, rfl, hidle, hgone⟩ := hx
    refine ⟨_, tr₂, r, List.append_assoc .., List.forall_mem_cons.mpr ⟨hu, hidle⟩, hn, hr, rfl, hgone, fun hv hl => ?_⟩
    exact absurd ⟨by rw [hv]; rfl, by rw [hl]; rfl⟩ hnone

/-- The undo of a start that failed. -/
theorem undoStart_settles {e : Fault} (h : Failed me id target tr) :
    (undoStart id e).Tells LetBe (Task.Outcome (fun _ _ => True) (Settles me)) tr := by
  obtain ⟨vid, loc, hb, hv⟩ := h
  refine (@undoMade_tells me _ _ _ _ _ hb).bind (fun _ tr' h => ?_) fun _ _ h => h.elim
  · obtain ⟨u, tr₂, r, rfl, hidle, hn, hr, htn, hgone, hnone⟩ := h
    refine fun i w hs _ => ?_
    generalize hx : (⟨i, w, (w.revise fun fed => { fed with vmMigrations := fed.vmMigrations.erase id }).release
      (VmMigration.claimKey id)⟩ : Moment Reply AppState) = x
    have hxi : Idles me x := by
      rw [← hx]
      exact idles_of_eq rfl rfl rfl
    show Settles me ((tr ++ u :: tr₂) ++ [x])
    intro hanswered
    have htr : (tr ++ u :: tr₂) ++ [x] = tr ++ (u :: tr₂ ++ [x]) := List.append_assoc ..
    have hreply : ∀ m ∈ tr₂ ++ [x], Replies target m := htn ▸ hanswered tr u (tr₂ ++ [x]) id r htr hn hr
    have hall : Gone target vid (tr ++ u :: tr₂) := hgone fun m hm => hreply m (List.mem_append_left _ hm)
    have hrecord : ∀ m, ((tr ++ u :: tr₂) ++ [x]).getLast? = some m → m.after.fed.vmMigrations[id]? = none := by
      intro m hm
      rw [List.getLast?_concat] at hm
      obtain rfl := Option.some.inj hm
      rw [← hx]
      show (w.fed.vmMigrations.erase id)[id]? = none
      rw [KeyMap.get_erase, if_pos rfl]
    rw [htr] at hrecord ⊢
    refine verdict_unleft hb hv (forall_mem_append.mpr ⟨hidle, hxi⟩) hrecord
      (fun v hv => htr ▸ deleted_append (hall v hv)) fun hvid hloc m hm => ?_
    obtain rfl := hnone hvid hloc
    rcases List.mem_cons.mp hm with rfl | hm
    · rw [hn]
      simp
    · obtain rfl := List.mem_singleton.mp hm
      rw [← hx]
      exact (forward_of_same rfl).1

theorem begin_settles {hostNqnFor : String → String} {r : VmMigration} (h : Begun r.id target none none tr)
    (hk : AllTold me target none tr) :
    (begin hostNqnFor me r).Tells LetBe (Task.Outcome (fun _ _ => True) (Settles me)) tr := by
  refine (advance_failed h hk).attempt_bind fun x tr hx => ?_
  cases x with
  | ok _ => exact fun _ _ _ _ _ _ _ _ => trivial
  | error e => exact undoStart_settles hx

theorem settles_idle (h : ∀ m ∈ tr, Idles me m) : Settles me tr := by
  obtain ⟨hv, hm, hl, ho⟩ := idles_all [] h
  rw [List.nil_append] at hv hm hl ho
  refine fun _ => iff_of_true ⟨fun v hv' => ?_, hm, fun id hid => ?_⟩ (hl.mpr fun _ hm => absurd hm List.not_mem_nil)
  · rw [hv] at hv'
    exact absurd hv' List.not_mem_nil
  · obtain ⟨_, hm, -⟩ := (ho id).mp hid
    exact absurd hm List.not_mem_nil

theorem openMigration_tells {node : String} {p : Planned} (h : ∀ m ∈ tr, m.after = m.before) :
    (openMigration me node target p).Tells LetBe (Task.Outcome
      (fun r tr => Begun r.id target none none tr ∧ AllTold me target none tr) (Settles me)) tr := by
  have hidle : ∀ m ∈ tr, Idles me m := fun m hm =>
    idles_of_eq (by rw [h m hm]) (by rw [h m hm]) (by rw [h m hm])
  obtain ⟨hvol, hmir, hlearn, -⟩ := idles_all [] hidle
  rw [List.nil_append] at hvol hmir hlearn
  refine fun i w hs _ => tells_ofExcept ?_
  dsimp only
  split
  · refine settles_idle (forall_mem_append.mpr ⟨hidle, ?_⟩)
    refine ⟨made_same rfl, fun _ => by rw [mirrorsAfter, noted_same rfl], fun ⟨_, _, _, hn⟩ => ?_, fun j hj => ?_⟩
    · rw [noted_same rfl] at hn
      cases hn
    · exact absurd hj.2.1 (by simp)
  · generalize hm : (⟨i, w, _⟩ : Moment Reply AppState) = m
    have hn : noted m = [] := noted_same (by rw [← hm]; rfl)
    have hmade : made me m = none := made_same (by rw [← hm]; rfl)
    have hopens : ∀ j, Opens m j → j = VmMigration.newId i.now w.seq := by
      rintro j ⟨-, -, hj⟩
      rw [← hm] at hj
      exact hj
    refine ⟨⟨⟨m, List.mem_append_right _ (List.mem_singleton.mpr rfl), ?_⟩, ?_, fun x hx => ?_, ?_⟩, ?_, ?_, ?_⟩
    · rw [← hm]
      exact ⟨rfl, rfl, rfl⟩
    · exact forall_mem_append.mpr ⟨fun x hx j hj => absurd hj ((hidle x hx).opens j), hopens⟩
    · rw [List.getLast?_concat] at hx
      obtain rfl := Option.some.inj hx
      rw [← hm]
      refine ⟨p.migration node target (VmMigration.newId i.now w.seq) i.now, ?_, rfl, rfl, rfl, rfl, rfl, rfl⟩
      show (w.fed.vmMigrations.insert _ _)[_]? = _
      rw [KeyMap.get_insert]
      exact if_pos rfl
    · refine forall_mem_append.mpr ⟨fun x hx => forward_of_same (by rw [h x hx]), ?_⟩
      rw [hn]
      exact ⟨fun _ _ _ _ => by simp, fun _ => by simp⟩
    · refine learnt_append.mpr ⟨hlearn.mpr fun _ hm => absurd hm List.not_mem_nil, fun hx => absurd hmade hx, ?_⟩
      rintro ⟨_, _, _, hx⟩
      rw [hn] at hx
      cases hx
    · rw [mirrorsLeft_append, hmir, mirrorsAfter, hn]
      rfl
    · rw [volumesMade_append, hvol, hmade]
      exact fun v hv => absurd hv List.not_mem_nil

end

variable {hostNqnFor : String → String} {me : Nat} {node vol : String} {body : MigrateBody}

/-- A start that fails, while the target's engine answers the undo, leaves
nothing exactly if each create that made a volume was answered with its id and
each mirror that was begun was answered. -/
theorem start_undone_iff {tr : List (Moment Reply AppState)} {e : Fault}
    (h : Among (start hostNqnFor me node vol body) tr (.fail e)) (hothers : Heeds LetBe tr) (hundo : UndoAnswered tr) :
    Unleft me tr ↔ Learnt me tr := by
  have ht : (start hostNqnFor me node vol body).Tells LetBe (Task.Outcome (fun _ _ => True) (Settles me)) [] := by
    refine Tells.only_bind (P := fun tr => ∀ m ∈ tr, m.after = m.before) (quiet_planMigration node vol body)
      (fun tr i w w' hp _ he => forall_mem_append.mpr ⟨hp, he⟩) (fun p tr hp => ?_) (fun e tr hp => ?_) (by simp)
    · exact (openMigration_tells hp).bind (fun r tr hr => begin_settles hr.1 hr.2) fun _ _ he => he
    · exact settles_idle fun m hm => idles_of_eq (by rw [hp m hm]) (by rw [hp m hm]) (by rw [hp m hm])
  exact ht.among h hothers hundo

/-! ## Small runs -/

/-- The engine of the target answers the undo, as a run shows. -/
def undoAnswered : List (Moment Reply AppState) → Bool
  | [] => true
  | m :: tr =>
    (match noted m with
      | [.undoing id] => (m.before.fed.vmMigrations[id]?).all fun r => tr.all fun m' =>
          m'.reply.wire = .answered ∧ (engineOn m'.before.fed r.targetNode).isOk
      | _ => true) && undoAnswered tr

theorem undoAnswered_of_check {tr : List (Moment Reply AppState)} (h : undoAnswered tr = true) : UndoAnswered tr := by
  intro tr₁ m tr₂ id r he hn hr m' hm'
  induction tr generalizing tr₁ with
  | nil => simp at he
  | cons x tr ih =>
    obtain ⟨hx, h⟩ := Bool.and_eq_true_iff.mp h
    cases tr₁ with
    | nil =>
      obtain ⟨rfl, rfl⟩ := List.cons.inj he
      rw [hn] at hx
      simp only [hr, Option.all_some] at hx
      obtain ⟨hw, hok⟩ := of_decide_eq_true (List.all_eq_true.mp hx m' hm')
      refine ⟨hw, ?_⟩
      cases hen : engineOn m'.before.fed r.targetNode with
      | ok _ => rfl
      | error e => simp [hen, Except.isOk, Except.toBool] at hok
    | cons y tr₁ => exact ih h tr₁ (List.cons.inj he).2

/-- The disk d on a is to be moved to b. -/
def twoNodes : AppState := { fed := { nodes := nodesOf [("a", true), ("b", true)] } }

/-- An engine that answers every call. -/
def diskReply : Reply where
  made := "m"
  item := { id := some "s", name := some "d", sizeBytes := some 10 }

/-- A start that is answered like this. -/
def startD (replies : List Reply) : List (Moment Reply AppState) :=
  (start id 0 "a" "s" { «to» := "b" }).moments replies twoNodes

/-- It comes to its failure, and the target's engine answers the undo. -/
def failsWith (replies : List Reply) : Bool :=
  ((start id 0 "a" "s" { «to» := "b" }).rest replies twoNodes).failing && undoAnswered (startD replies)

theorem startD_fails {replies : List Reply} (h : failsWith replies = true) :
    ∃ e, Among (start id 0 "a" "s" { «to» := "b" }) (startD replies) (.fail e) ∧ Heeds LetBe (startD replies) ∧
      UndoAnswered (startD replies) := by
  obtain ⟨hf, hu⟩ := Bool.and_eq_true_iff.mp h
  obtain ⟨e, he⟩ := failing_iff.mp hf
  refine ⟨e, he ▸ among_moments _ _ _, heeds_moments _ _ _ (fun tr m hm x id hx _ => ?_) (fun m _ hm => nomatch hm),
    undoAnswered_of_check hu⟩
  rw [Option.some.inj (hm.symm.trans hx)]

/-- The target's volume is made and not found by its name. -/
def findRefused : List Reply :=
  List.replicate 8 diskReply ++ { diskReply with wire := .refused none "busy" } :: List.replicate 4 diskReply

/-- The target's volume is made, and the answer lost. -/
def createLost : List Reply :=
  List.replicate 6 diskReply ++ { diskReply with wire := .lost "timeout" } :: List.replicate 2 diskReply

/-- A create that was answered is undone. -/
theorem start_undone_iff_small : ∃ tr e, Among (start id 0 "a" "s" { «to» := "b" }) tr (.fail e) ∧ Heeds LetBe tr ∧
    UndoAnswered tr ∧ Unleft 0 tr := by
  obtain ⟨e, hgo, ho, hu⟩ := startD_fails (show failsWith findRefused = true by decide +kernel)
  refine ⟨_, e, hgo, ho, hu, (start_undone_iff hgo ho hu).mpr fun m hm => ?_⟩
  have hall : ((startD findRefused).all fun m => ((made 0 m).isNone || m.reply.names) && (noted m).all fun
      | .mirroring _ _ _ => false
      | _ => true) = true := by decide +kernel
  obtain ⟨hnames, hn⟩ := Bool.and_eq_true_iff.mp (List.all_eq_true.mp hall m hm)
  refine ⟨fun hmade => ?_, fun ⟨_, _, _, h⟩ => ?_⟩
  · exact (Bool.or_eq_true_iff.mp hnames).resolve_left fun hnone => hmade (Option.isNone_iff_eq_none.mp hnone)
  rw [h] at hn
  simp at hn

def deletesCopy : Event → Bool
  | .copyDeleted _ _ _ _ => true
  | _ => false

/-- The answer of the create is lost. -/
theorem not_start_undone : ¬ ∀ (hostNqnFor : String → String) (me : Nat) (node vol : String) (body : MigrateBody)
    (tr : List (Moment Reply AppState)) (e : Fault), Among (start hostNqnFor me node vol body) tr (.fail e) →
    Heeds LetBe tr → UndoAnswered tr → Unleft me tr := by
  intro h
  obtain ⟨e, hgo, ho, hu⟩ := startD_fails (show failsWith createLost = true by decide +kernel)
  have hleft := h _ _ _ _ _ _ _ hgo ho hu
  have hmade : (volumesMade 0 (startD createLost)).isEmpty = false := by decide +kernel
  obtain ⟨v, hv⟩ := List.exists_mem_of_ne_nil _ (by simpa using hmade)
  obtain ⟨m, hm, j, c, hn⟩ := hleft.volumes v hv
  have hall : ((startD createLost).all fun m => (noted m).all fun e => !deletesCopy e) = true := by decide +kernel
  have := List.all_eq_true.mp hall m hm
  rw [hn] at this
  simp [deletesCopy] at this

end StormStorage.VmMigrate
