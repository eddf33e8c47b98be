import StormStorage.Await.Crash
import StormStorage.StateFile

/-!
# What a start finds of the state

* `loadState_reported_iff`: when the state that is read is the one that was
  kept, or what it started from is reported;
* `Durable.recovered`: what is read back after a crash is the last state that was
  saved, or one whose save was begun since;
* `upholds_save`: every step of a save leaves the disk so;
* `crashConsistent_iff`: this is so when the path names its directory.
-/

namespace StormStorage

open Await

variable {c : Codec FedState}

/-! ## Reading -/

/-- Without a report the state is the kept one; a report names what it started
from. -/
def Reported (c : Codec FedState) (state prev : FileReading) (r : FedState × Option StateRecovery) : Prop :=
  match r.2 with
  | none =>
    (∃ s, state = .text s ∧ c.fromStr s = .ok r.1) ∨ (state = .absent ∧ ∃ s, prev = .text s ∧ c.fromStr s = .ok r.1) ∨
      state = .absent ∧ prev = .absent ∧ r.1 = {}
  | some rec =>
    (rec.startedFrom = "previous" ∧ ∃ s, prev = .text s ∧ c.fromStr s = .ok r.1) ∨
      rec.startedFrom = "empty" ∧ r.1 = {} ∧ ∀ s fed, prev = .text s → c.fromStr s ≠ .ok fed

/-- There is a previous copy, and no state in it. -/
def Spoilt (c : Codec FedState) (prev : FileReading) : Prop :=
  prev ≠ .absent ∧ ∀ s fed, prev = .text s → c.fromStr s ≠ .ok fed

/-- No state is lost unreported, unless the state file is missing and the
previous copy is spoilt. -/
theorem loadState_reported_iff (c : Codec FedState) (path : String) (state prev : FileReading) (now : SystemTime)
    (setAside : Bool) :
    (∀ r, loadState c path state prev now setAside = .ok r → Reported c state prev r) ↔
      ¬ (state = .absent ∧ Spoilt c prev) := by
  cases state with
  | absent =>
    simp only [true_and, loadState, Except.ok.injEq, forall_eq']
    cases prev with
    | absent => simp [Reported, Spoilt, FedState.load]
    | unreadable e => simp [Reported, Spoilt, FedState.load]
    | text s =>
      cases hp : c.fromStr s with
      | ok fed => simp [Reported, Spoilt, FedState.load, hp]
      | error e => simp [Reported, Spoilt, FedState.load, hp]
  | unreadable e => simp [loadState]
  | text t =>
    simp only [loadState, reduceCtorEq, false_and, not_false_eq_true, iff_true]
    intro r h
    cases ht : c.fromStr t with
    | ok fed =>
      rw [ht] at h
      obtain rfl := Except.ok.inj h
      exact .inl ⟨t, rfl, ht⟩
    | error e =>
      rw [ht] at h
      obtain rfl := Except.ok.inj h
      cases prev with
      | absent => exact .inr ⟨rfl, rfl, fun _ _ h => nomatch h⟩
      | unreadable e => exact .inr ⟨rfl, rfl, fun _ _ h => nomatch h⟩
      | text s =>
        cases hp : c.fromStr s with
        | ok fed =>
          refine .inl ⟨?_, s, rfl, ?_⟩ <;> simp only [hp]
        | error e =>
          refine .inr ⟨?_, ?_, fun s' fed hs => ?_⟩
          · simp only [hp]
          · simp only [hp]
          · obtain rfl := FileReading.text.inj hs
            rw [hp]
            exact nofun

/-- The state file is missing, and its previous copy does not parse: the start
is empty and nothing is reported. -/
theorem not_loadState_reported :
    ¬ ∀ (c : Codec FedState) (path : String) (state prev : FileReading) (now : SystemTime) (setAside : Bool)
      (r : FedState × Option StateRecovery),
      loadState c path state prev now setAside = .ok r → Reported c state prev r := by
  intro h
  have hbad := h ⟨fun _ => "", fun _ => .error "EOF while parsing a value at line 1 column 0"⟩ "state.json" .absent
    (.text "") 0 true _ rfl
  rcases hbad with ⟨s, hs, -⟩ | ⟨-, s, -, hp⟩ | ⟨-, hp, -⟩
  · cases hs
  · cases hp
  · cases hp

/-! ## After a crash -/

/-- A temporary file of a save. -/
def FileName.IsTmp (f : FileName) : Prop := ∃ n, f = .tmp n

/-- What the last completed save wrote, or one begun since. -/
def Saves.Latest (w : Saves) (fed : FedState) : Prop := w.completed = some fed ∨ fed ∈ w.begun

/-- The file holds such a state, and is synced. -/
def Saves.Wrote (c : Codec FedState) (w : Saves) (i : Nat) : Prop :=
  ∃ fed, w.Latest fed ∧ w.disk.files i = (some (c.toString fed), true)

/-- What the disk is like at every moment: the state file has been there since
the first save was completed, and is one of the latest; until then so is the
previous copy. -/
structure Durable (c : Codec FedState) (w : Saves) : Prop where
  tidy : w.disk.Tidy FileName.IsTmp
  reads : ∀ fed, w.Latest fed → c.fromStr (c.toString fed) = .ok fed
  there : none ∈ w.disk.values .state → w.completed = none
  state : ∀ i, some i ∈ w.disk.values .state → w.Wrote c i
  prev : w.completed = none → ∀ i, some i ∈ w.disk.values .prev → w.Wrote c i

/-- What a start finds: the last completed state or one begun since, and
nothing only when no save was completed. -/
def Saves.Recovers (w : Saves) (r : Except String (FedState × Option StateRecovery)) : Prop :=
  ∃ fed, r = .ok (fed, none) ∧ (w.Latest fed ∨ w.completed = none ∧ fed = {})

theorem Durable.recovered {w : Saves} (h : Durable c w) {r : FileName → Option Content} (hr : w.disk.Survives r)
    (path : String) (now : SystemTime) (setAside : Bool) :
    w.Recovers (loadState c path (.of (r .state)) (.of (r .prev)) now setAside) := by
  rcases Disk.survives_read hr .state with ⟨hs, hnone⟩ | ⟨i, hi, hs⟩
  · have hc := h.there hnone
    rw [hs]
    rcases Disk.survives_read hr .prev with ⟨hp, -⟩ | ⟨j, hj, hp⟩
    · rw [hp]
      exact ⟨{}, rfl, .inr ⟨hc, rfl⟩⟩
    · obtain ⟨fed, hlatest, hf⟩ := h.prev hc j hj
      rw [hp (by rw [hf]), hf]
      refine ⟨fed, ?_, .inl hlatest⟩
      simp only [FileReading.of, loadState, FedState.load, h.reads fed hlatest]
  · obtain ⟨fed, hlatest, hf⟩ := h.state i hi
    rw [hs (by rw [hf]), hf]
    refine ⟨fed, ?_, .inl hlatest⟩
    simp only [FileReading.of, loadState, h.reads fed hlatest]

/-! ## The steps of a save -/

variable {w : Saves} {n : Nat} {fed : FedState}

theorem sound_start : Durable c {} where
  tidy := by
    refine ⟨fun n i h => ?_, fun n i _ h => ?_⟩
    · simp [Disk.empty, Disk.values] at h
    · cases h
  reads fed h := by
    rcases h with h | h <;> cases h
  there _ := rfl
  state i h := by simp [Disk.empty, Disk.values] at h
  prev _ i h := by simp [Disk.empty, Disk.values] at h

/-- A step that leaves the files and the state file's name; the previous copy
stays or becomes what the state file was. -/
theorem Durable.names {d : Disk FileName Content} (h : Durable c w) (ht : d.Tidy FileName.IsTmp)
    (hf : d.files = w.disk.files) (hs : ∀ v, v ∈ d.values .state → v ∈ w.disk.values .state)
    (hp : ∀ i, some i ∈ d.values .prev → some i ∈ w.disk.values .prev ∨ some i ∈ w.disk.values .state) :
    Durable c { w with disk := d } where
  tidy := ht
  reads := h.reads
  there hn := h.there (hs _ hn)
  state i hi := by
    obtain ⟨fed, hl, he⟩ := h.state i (hs _ hi)
    exact ⟨fed, hl, hf ▸ he⟩
  prev hc i hi := by
    obtain ⟨fed, hl, he⟩ := (hp i hi).elim (h.prev hc i) (h.state i)
    exact ⟨fed, hl, hf ▸ he⟩

/-- A step that writes a file that neither name may stand for. -/
theorem Durable.file (h : Durable c w) {i : Nat} (hout : ∀ f, ¬ f.IsTmp → some i ∉ w.disk.values f) (x : Content × Bool) :
    Durable c { w with disk := w.disk.setFile i x } where
  tidy := h.tidy.setFile i x
  reads := h.reads
  there := h.there
  state j hj := by
    obtain ⟨fed, hl, he⟩ := h.state j hj
    have hne : j ≠ i := fun hji => hout .state (fun ⟨_, he⟩ => nomatch he) (hji ▸ hj)
    exact ⟨fed, hl, (if_neg hne).trans he⟩
  prev hc j hj := by
    obtain ⟨fed, hl, he⟩ := h.prev hc j hj
    have hne : j ≠ i := fun hji => hout .prev (fun ⟨_, he⟩ => nomatch he) (hji ▸ hj)
    exact ⟨fed, hl, (if_neg hne).trans he⟩

theorem Durable.private (h : Durable c w) {i : Nat} (hi : w.disk.names (.tmp n) = some i) :
    ∀ f : FileName, ¬ f.IsTmp → some i ∉ w.disk.values f :=
  fun _ hf => h.tidy.own _ _ ⟨n, rfl⟩ hi _ fun he => hf ⟨n, he⟩

theorem upholds_fileCall {β : Type} {f : Disk FileName Content → Option (β × Disk FileName Content)} {Q : β → Saves → Prop}
    {E : Saves → Prop} (hs : Durable c w) (he : E w)
    (h : ∀ b d, f w.disk = some (b, d) → Durable c { w with disk := d } ∧ Q b { w with disk := d }) :
    (fileCall f).Upholds (Durable c) (Task.Outcome Q E) w := by
  refine Task.Upholds.bind (Q := Task.Outcome (Task.Outcome Q E) E) (Task.upholds_atomic fun r => ?_)
    (fun a w' ha => Task.upholds_ofExcept ha) fun _ _ h => h
  cases hf : f w.disk with
  | none => exact ⟨hs, he⟩
  | some p =>
    obtain ⟨hs', hq⟩ := h p.1 p.2 hf
    cases hr : r.ok with
    | true => exact ⟨hs', hq⟩
    | false => exact ⟨hs, he⟩

theorem upholds_fileAct {f : Disk FileName Content → Option (Disk FileName Content)} {Q E : Saves → Prop} (hs : Durable c w)
    (he : E w) (h : ∀ d, f w.disk = some d → Durable c { w with disk := d } ∧ Q { w with disk := d }) :
    (fileAct f).Upholds (Durable c) (Task.Outcome (fun _ => Q) E) w := by
  refine upholds_fileCall hs he fun b d hd => ?_
  obtain ⟨d', hd', hp⟩ := Option.map_eq_some_iff.mp hd
  exact (Prod.mk.inj hp).2 ▸ h d' hd'

/-- The temporary file holds the new state, and is synced. -/
structure Written (c : Codec FedState) (n : Nat) (fed : FedState) (w : Saves) : Prop where
  sound : Durable c w
  begun : fed ∈ w.begun
  file : ∃ i, w.disk.names (.tmp n) = some i ∧ w.disk.files i = (some (c.toString fed), true)

theorem names_create (d : Disk FileName Content) (f : FileName) :
    (d.create none f).2.names f = some (d.create none f).1 := by
  unfold Disk.create
  split
  · assumption
  · rw [Disk.names_setName, if_pos rfl]

theorem Durable.create (h : Durable c w) (n : Nat) : Durable c { w with disk := (w.disk.create none (.tmp n)).2 } := by
  have htidy := h.tidy.create none (.tmp n)
  unfold Disk.create at htidy ⊢
  split
  · rename_i i hi
    exact h.file (h.private hi) _
  · rename_i hnone
    rw [hnone] at htidy
    have hout : ∀ f : FileName, ¬ f.IsTmp → some w.disk.next ∉ w.disk.values f :=
      fun f _ hv => Nat.lt_irrefl _ (h.tidy.bounded f _ hv)
    have hfile := h.file hout (none, false)
    exact ⟨htidy, hfile.reads, hfile.there, hfile.state, hfile.prev⟩

theorem upholds_writeTmp (hs : Durable c w) (hb : fed ∈ w.begun) :
    (writeTmp n (c.toString fed)).Upholds (Durable c) (Task.Outcome (fun _ => Written c n fed) (Durable c)) w := by
  -- the file that is open
  let opened (x : Content × Bool → Prop) (f : Nat) (w : Saves) : Prop :=
    Durable c w ∧ fed ∈ w.begun ∧ w.disk.names (.tmp n) = some f ∧ x (w.disk.files f)
  have hcreate : (fileCall fun d => some (d.create none (.tmp n))).Upholds (Durable c)
      (Task.Outcome (opened fun _ => True) (Durable c)) w := by
    refine upholds_fileCall hs hs fun f d hd => ?_
    obtain ⟨rfl, rfl⟩ := Prod.mk.inj (Option.some.inj hd)
    have hs' := hs.create n
    exact ⟨hs', hs', hb, names_create w.disk (.tmp n), trivial⟩
  refine hcreate.bind (fun f w₁ ⟨hs₁, hb₁, hn₁, _⟩ => ?_) fun e w' h => h
  have hwrite : (writeAll f (c.toString fed)).Upholds (Durable c)
      (Task.Outcome (fun _ => opened (· = (some (c.toString fed), false)) f) (Durable c)) w₁ := by
    refine Task.Upholds.bind (Q := Task.Outcome (Task.Outcome (fun _ => opened (· = (some (c.toString fed), false)) f)
      (Durable c)) (Durable c)) (Task.upholds_atomic fun r => ?_) (fun a w' ha => Task.upholds_ofExcept ha) fun _ _ h => h
    cases hr : r.ok with
    | true =>
      have hs' := hs₁.file (hs₁.private hn₁) (some (c.toString fed), false)
      exact ⟨hs', hs', hb₁, hn₁, if_pos rfl⟩
    | false =>
      have hs' := hs₁.file (hs₁.private hn₁) (r.torn, false)
      exact ⟨hs', hs'⟩
  refine hwrite.bind (fun _ w₂ ⟨hs₂, hb₂, hn₂, hf₂⟩ => ?_) fun e w' h => h
  refine upholds_fileAct hs₂ hs₂ fun d hd => ?_
  obtain rfl := Option.some.inj hd
  have hs' := hs₂.file (hs₂.private hn₂) ((w₂.disk.files f).1, true)
  exact ⟨hs', hs', hb₂, f, hn₂, (if_pos rfl).trans (by rw [hf₂])⟩

/-- A step on other names leaves the temporary file as it is. -/
theorem Written.names (h : Written c n fed w) {d : Disk FileName Content} (hs : Durable c { w with disk := d })
    (hf : d.files = w.disk.files) (hn : d.names (.tmp n) = w.disk.names (.tmp n)) :
    Written c n fed { w with disk := d } := by
  obtain ⟨i, hi, he⟩ := h.file
  exact ⟨hs, h.begun, i, hn.trans hi, by rw [hf]; exact he⟩

theorem upholds_keepPrevious (h : Written c n fed w) :
    (keepPrevious n).Upholds (Durable c) (Task.Outcome (fun _ => Written c n fed) fun _ => False) w := by
  have hlink : (fileAct fun d => d.link .state (.prevTmp n)).Upholds (Durable c) (Task.Outcome (fun _ w' => Written c n fed w' ∧
      w'.disk.names (.prevTmp n) = w'.disk.names .state) (Written c n fed)) w := by
    refine upholds_fileAct h.sound h fun d hd => ?_
    have htidy := h.sound.tidy.link (fun ⟨_, he⟩ => nomatch he) (fun ⟨_, he⟩ => nomatch he) hd
    obtain ⟨i, hi, -, rfl⟩ := Disk.link_eq hd
    have hs' := h.sound.names htidy rfl
      (fun v hv => (Disk.mem_values_setName hv).resolve_right fun hv => nomatch hv.1)
      (fun v hv => .inl ((Disk.mem_values_setName hv).resolve_right fun hv => nomatch hv.1))
    refine ⟨hs', h.names hs' rfl rfl, ?_⟩
    show (w.disk.setName (.prevTmp n) (some i)).names (.prevTmp n) = w.disk.names .state
    rw [Disk.names_setName, if_pos rfl, hi]
  refine hlink.attempt_bind fun x w₁ hx => ?_
  cases x with
  | error e => exact hx
  | ok _ =>
    obtain ⟨h₁, hp⟩ := hx
    have hrename : (fileAct fun d => d.rename (.prevTmp n) .prev).Upholds (Durable c)
        (Task.Outcome (fun _ => Written c n fed) (Written c n fed)) w₁ := by
      refine upholds_fileAct h₁.sound h₁ fun d hd => ?_
      have htidy := h₁.sound.tidy.rename (fun ⟨_, he⟩ => nomatch he) hd
      obtain ⟨i, hi, ⟨-, rfl⟩ | ⟨-, rfl⟩⟩ := Disk.rename_eq hd
      · exact ⟨h₁.sound, h₁⟩
      · have hstate : some i ∈ w₁.disk.values .state := (hp.symm.trans hi) ▸ List.mem_cons_self ..
        have hs' := h₁.sound.names htidy rfl
          (fun v hv => (Disk.mem_values_setName ((Disk.mem_values_setName hv).resolve_right
            fun hv => nomatch hv.1)).resolve_right fun hv => nomatch hv.1)
          (fun v hv => (Disk.mem_values_setName ((Disk.mem_values_setName hv).resolve_right
            fun hv => nomatch hv.1)).imp_right fun ⟨_, he⟩ => he ▸ hstate)
        exact ⟨hs', h₁.names hs' rfl rfl⟩
    refine hrename.attempt_bind fun x w₂ hx => ?_
    cases x with
    | ok _ => exact hx
    | error e =>
      have h₂ : Written c n fed w₂ := hx
      have hremove : (fileAct fun d => d.remove (.prevTmp n)).Upholds (Durable c)
          (Task.Outcome (fun _ => Written c n fed) (Written c n fed)) w₂ := by
        refine upholds_fileAct h₂.sound h₂ fun d hd => ?_
        have htidy := h₂.sound.tidy.remove hd
        obtain rfl := Disk.remove_eq hd
        have hs' := h₂.sound.names htidy rfl
          (fun v hv => (Disk.mem_values_setName hv).resolve_right fun hv => nomatch hv.1)
          (fun v hv => .inl ((Disk.mem_values_setName hv).resolve_right fun hv => nomatch hv.1))
        exact ⟨hs', h₂.names hs' rfl rfl⟩
      refine hremove.attempt_bind fun x w₃ hx => ?_
      cases x <;> exact hx

/-- The new state has its place. -/
structure Placed (c : Codec FedState) (fed : FedState) (w : Saves) : Prop where
  sound : Durable c w
  begun : fed ∈ w.begun
  file : ∃ i, w.disk.names .state = some i ∧ w.disk.files i = (some (c.toString fed), true)

theorem upholds_place (h : Written c n fed w) :
    (fileAct fun d => d.rename (.tmp n) .state).Upholds (Durable c)
      (Task.Outcome (fun _ => Placed c fed) (Durable c)) w := by
  refine upholds_fileAct h.sound h.sound fun d hd => ?_
  have htidy := h.sound.tidy.rename (fun ⟨_, he⟩ => nomatch he) hd
  obtain ⟨j, hj, hfile⟩ := h.file
  obtain ⟨i, hi, ⟨hsame, rfl⟩ | ⟨-, rfl⟩⟩ := Disk.rename_eq hd
  · obtain rfl : i = j := Option.some.inj (hi.symm.trans hj)
    exact ⟨h.sound, h.sound, h.begun, i, hsame, hfile⟩
  · obtain rfl : i = j := Option.some.inj (hi.symm.trans hj)
    have hold : ∀ v, v ∈ ((w.disk.setName .state (some i)).setName (.tmp n) none).values .state →
        v ∈ w.disk.values .state ∨ v = some i := fun v hv =>
      (Disk.mem_values_setName ((Disk.mem_values_setName hv).resolve_right fun hv => nomatch hv.1)).imp_right (·.2)
    have hs' : Durable c { w with disk := (w.disk.setName .state (some i)).setName (.tmp n) none } := {
      tidy := htidy
      reads := h.sound.reads
      there := fun hn => h.sound.there ((hold _ hn).resolve_right nofun)
      state := by
        intro k hk
        rcases hold _ hk with hk | hk
        · exact h.sound.state k hk
        · exact ⟨fed, .inr h.begun, Option.some.inj hk ▸ hfile⟩
      prev := fun hc k hk => h.sound.prev hc k ((Disk.mem_values_setName ((Disk.mem_values_setName hk).resolve_right
        fun hv => nomatch hv.1)).resolve_right fun hv => nomatch hv.1) }
    refine ⟨hs', hs', h.begun, i, ?_, hfile⟩
    show ((w.disk.setName .state (some i)).setName (.tmp n) none).names .state = some i
    rw [Disk.names_setName, if_neg (by simp), Disk.names_setName, if_pos rfl]

/-- Once the directory is synced the new state is all there is. -/
theorem upholds_syncDir (h : Placed c fed w) :
    (fileAct fun d => some d.syncDir).Upholds (Durable c)
      (Task.Outcome (fun _ w' => Placed c fed w' ∧ w'.disk.older .state = []) (Durable c)) w := by
  refine upholds_fileAct h.sound h.sound fun d hd => ?_
  obtain rfl := Option.some.inj hd
  have hs' := h.sound.names h.sound.tidy.syncDir rfl (fun v hv => Disk.mem_values_syncDir hv)
    (fun i hi => .inl (Disk.mem_values_syncDir hi))
  exact ⟨hs', ⟨hs', h.begun, h.file⟩, rfl⟩

theorem Placed.completed (h : Placed c fed w) (hold : w.disk.older .state = []) :
    Durable c { w with completed := some fed, begun := [] } := by
  obtain ⟨i, hi, hfile⟩ := h.file
  have hvalues : w.disk.values .state = [some i] := by rw [Disk.values, hold, hi]
  refine ⟨h.sound.tidy, fun fed' hl => ?_, fun hn => ?_, fun k hk => ?_, fun hc => by cases hc⟩
  · obtain rfl : fed = fed' := Option.some.inj (hl.resolve_right (List.not_mem_nil))
    exact h.sound.reads fed (.inr h.begun)
  · rw [show ({ w with completed := some fed, begun := [] } : Saves).disk = w.disk from rfl, hvalues] at hn
    cases List.mem_singleton.mp hn
  · rw [show ({ w with completed := some fed, begun := [] } : Saves).disk = w.disk from rfl, hvalues] at hk
    obtain rfl := Option.some.inj (List.mem_singleton.mp hk)
    exact ⟨fed, .inl rfl, hfile⟩

/-- Wherever a save into a named directory is cut off, the disk is as it must
be. -/
theorem upholds_save (hs : Durable c w) (hread : c.fromStr (c.toString fed) = .ok fed) :
    (FedState.save c true n fed).Upholds (Durable c) (fun _ => Durable c) w := by
  have hbegin : Durable c { w with begun := fed :: w.begun } := by
    have hmono : ∀ i, w.Wrote c i → ({ w with begun := fed :: w.begun } : Saves).Wrote c i := fun i ⟨f, hl, he⟩ =>
      ⟨f, hl.imp_right (List.mem_cons_of_mem _), he⟩
    refine ⟨hs.tidy, fun f hl => ?_, hs.there, fun i hi => hmono i (hs.state i hi), fun hc i hi => hmono i (hs.prev hc i hi)⟩
    rcases hl with hl | hl
    · exact hs.reads f (.inl hl)
    · rcases List.mem_cons.mp hl with rfl | hl
      · exact hread
      · exact hs.reads f (.inr hl)
  unfold FedState.save
  simp only [Task.bind_eq, if_true]
  refine Task.Upholds.bind (Q := Task.Outcome (fun _ w' => Durable c w' ∧ fed ∈ w'.begun) fun _ => False)
    (Task.upholds_atomic fun _ => ⟨hbegin, hbegin, List.mem_cons_self ..⟩) (fun _ w₁ ⟨h₁, hb₁⟩ => ?_) fun _ _ h => h.elim
  refine (upholds_fileAct (Q := fun w' => Durable c w' ∧ fed ∈ w'.begun) h₁ h₁ fun d hd => ?_).bind
    (fun _ w₂ ⟨h₂, hb₂⟩ => ?_) fun _ _ h => h
  · obtain rfl := Option.some.inj hd
    exact ⟨h₁, h₁, hb₁⟩
  refine (upholds_writeTmp h₂ hb₂).attempt_bind fun x w₃ hx => ?_
  cases x with
  | error e =>
    -- nothing but the temporary file is touched
    have h₃ : Durable c w₃ := hx
    refine (upholds_fileAct (Q := Durable c) h₃ h₃ fun d hd => ?_).attempt_bind fun y w₄ hy => ?_
    · have htidy := h₃.tidy.remove hd
      obtain rfl := Disk.remove_eq hd
      have hs' := h₃.names htidy rfl
        (fun v hv => (Disk.mem_values_setName hv).resolve_right fun hv => nomatch hv.1)
        (fun v hv => .inl ((Disk.mem_values_setName hv).resolve_right fun hv => nomatch hv.1))
      exact ⟨hs', hs'⟩
    · cases y <;> exact hy
  | ok _ =>
    refine (upholds_keepPrevious hx).bind (fun _ w₄ h₄ => ?_) fun _ _ h => h.elim
    refine (upholds_place h₄).bind (fun _ w₅ h₅ => ?_) fun _ _ h => h
    refine (upholds_syncDir h₅).bind (fun _ w₆ h₆ => ?_) fun _ _ h => h
    exact Task.upholds_atomic fun _ => ⟨h₆.1.completed h₆.2, h₆.1.completed h₆.2⟩

/-! ## Every sequence of saves -/

/-- Wherever a sequence of saves is cut off, what a start then reads is the last
completed state or one whose save was begun since. The serializer reads back
what it wrote. -/
def CrashConsistent (c : Codec FedState) (inDir : Bool) : Prop :=
  ∀ saves : List (Nat × FedState), (∀ p ∈ saves, c.fromStr (c.toString p.2) = .ok p.2) →
    ∀ w, Task.Visits (persistFile c inDir saves) {} w → ∀ r, w.disk.Survives r →
      ∀ path now setAside, w.Recovers (loadState c path (.of (r .state)) (.of (r .prev)) now setAside)

/-- Saves into a named directory are crash consistent. -/
theorem crashConsistent_inDir (c : Codec FedState) : CrashConsistent c true := by
  intro saves hread w hv r hr path now setAside
  have hloop : (persistFile c true saves).Upholds (Durable c) (fun _ => Durable c) {} :=
    Task.Upholds.forEach (fun p hp w hs => (upholds_save hs (hread p hp)).attempt_bind fun _ _ h => h) sound_start
  exact (hloop.visits sound_start hv).recovered hr path now setAside

/-- The path is `state.json`, of no named directory: the save is completed, and
the crash takes the name back. -/
theorem not_crashConsistent_bare {fed : FedState} (hread : c.fromStr (c.toString fed) = .ok fed) (hne : fed ≠ {}) :
    ¬ CrashConsistent c false := by
  intro h
  obtain ⟨w, hrun, hdone, hbegun, hstate, hprev⟩ : ∃ w, (persistFile c false [(0, fed)]).run (List.replicate 7 {}) {} =
      some (.ok (), w) ∧ w.completed = some fed ∧ w.begun = [] ∧ none ∈ w.disk.values .state ∧
        w.disk.names .prev = none :=
    ⟨_, rfl, rfl, rfl, .tail _ (.head _), rfl⟩
  let left (f : FileName) : Option Nat := if f = .state then none else w.disk.names f
  have hsurvives : w.disk.Survives fun f => (left f).map fun i => (w.disk.files i).1 := by
    refine ⟨left, _, fun f => ?_, fun _ _ => rfl, fun _ => rfl⟩
    by_cases hf : f = .state
    · rw [show left f = none from if_pos hf, hf]
      exact hstate
    · rw [show left f = w.disk.names f from if_neg hf]
      exact List.mem_cons_self ..
  obtain ⟨fed', hload, hlatest⟩ := h [(0, fed)] (by simpa using hread) w (Task.ends_of_run hrun).visits _ hsurvives
    "state.json" 0 true
  rw [show left .prev = none from hprev] at hload
  obtain rfl : {} = fed' := congrArg Prod.fst (Except.ok.inj hload)
  rcases hlatest with (hl | hl) | ⟨hl, -⟩
  · exact hne (Option.some.inj (hdone.symm.trans hl))
  · rw [hbegun] at hl
    cases hl
  · rw [hdone] at hl
    cases hl

/-- A serializer, as it does with the state of revision 1. -/
def revisionCodec : Codec FedState where
  toString fed := if fed.revision = 1 then "1" else ""
  fromStr s := if s = "1" then .ok { revision := 1 } else .error "EOF while parsing a value at line 1 column 0"

end StormStorage
