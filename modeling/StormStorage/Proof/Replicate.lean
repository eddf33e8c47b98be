import StormStorage.Replicate

/-!
# Peers at one revision

Where every local change leads to a revision above all others, a revision has
one content: `Versions` says which, and `converged` that peers at the same
revision hold the same. `not_converged` is two changes that lead to the same
revision.
-/

namespace StormStorage

open Await

namespace Peers

/-- Every local change leads to a revision that no peer has reached: it bumps
the revision, and is made where the newest state is. -/
def Ahead (w w' : Peers) : Prop :=
  ∀ c, w'.made = w.made ++ [c] → ∀ (q : String) (fed : FedState), w.fed[q]? = some fed → fed.revision < c.revision

/-- Each revision has one content, `C`, at every peer and in every payload; a
payload's revision was reached by a peer. -/
structure Versions (C : Nat → Intent) (w : Peers) : Prop where
  held : ∀ (p : String) (fed : FedState), w.fed[p]? = some fed → fed.intent = C fed.revision
  sent : ∀ m ∈ w.sent, m.toIntent = C m.revision
  reached : ∀ m ∈ w.sent, ∃ (p : String) (fed : FedState), w.fed[p]? = some fed ∧ m.revision ≤ fed.revision

variable {C : Nat → Intent} {w : Peers} {p : String}

theorem apply_intent (fed : FedState) (m : Payload) :
    (fed.applyPayload m).2 = fed ∨
      (fed.applyPayload m).2.intent = m.toIntent ∧ (fed.applyPayload m).2.revision = m.revision := by
  rw [FedState.applyPayload]
  split
  · exact .inl rfl
  · exact .inr ⟨rfl, rfl⟩

theorem apply_revision (fed : FedState) (m : Payload) : fed.revision ≤ (fed.applyPayload m).2.revision := by
  rw [FedState.applyPayload]
  split
  · exact Nat.le_refl _
  · rename_i h
    exact Nat.le_of_lt (Nat.lt_of_not_le h)

/-- A peer that moves to a later state has still reached what it had. -/
theorem reached_insert {fed fed' : FedState} {n : Nat} (hp : w.fed[p]? = some fed)
    (hle : fed.revision ≤ fed'.revision) (h : ∃ (q : String) (f : FedState), w.fed[q]? = some f ∧ n ≤ f.revision) :
    ∃ (q : String) (f : FedState), (w.fed.insert p fed')[q]? = some f ∧ n ≤ f.revision := by
  obtain ⟨q, f, hq, hn⟩ := h
  by_cases hpq : p = q
  · subst hpq
    obtain rfl := Option.some.inj (hp.symm.trans hq)
    exact ⟨p, fed', KeyMap.get_insert_self .., Nat.le_trans hn hle⟩
  · exact ⟨q, f, by rw [KeyMap.get_insert_ne _ _ hpq, hq], hn⟩

/-- A change that is ahead gives its revision a content. -/
theorem versions_change (hv : Versions C w) {fed : FedState} {bumps : Bool} (ha : Ahead w (w.change p fed bumps)) :
    ∃ C, Versions C (w.change p fed bumps) := by
  unfold change at ha ⊢
  cases hp : w.fed[p]? with
  | none => exact ⟨C, by simpa only [hp] using hv⟩
  | some f =>
    simp only [hp] at ha ⊢
    generalize hr : (if bumps = true then f.revision + 1 else f.revision) = r at ha ⊢
    have hlt (q : String) (f : FedState) (hq : w.fed[q]? = some f) : f.revision < r := ha _ rfl q f hq
    have hsent (m : Payload) (hm : m ∈ w.sent) : m.revision < r := by
      obtain ⟨q, f, hq, hle⟩ := hv.reached m hm
      exact Nat.lt_of_le_of_lt hle (hlt q f hq)
    refine ⟨fun n => if n = r then fed.intent else C n, fun q f' hq => ?_, fun m hm => ?_, fun m hm => ?_⟩
    · rw [KeyMap.get_insert] at hq
      split at hq
      · obtain rfl := Option.some.inj hq
        exact (if_pos rfl).symm
      · rw [if_neg (Nat.ne_of_lt (hlt q f' hq))]
        exact hv.held q f' hq
    · rw [if_neg (Nat.ne_of_lt (hsent m hm))]
      exact hv.sent m hm
    · exact reached_insert hp (Nat.le_of_lt (hlt p f hp)) (hv.reached m hm)

theorem versions_push (hv : Versions C w) : Versions C (w.push p) := by
  unfold push
  cases hp : w.fed[p]? with
  | none => exact hv
  | some f =>
    refine ⟨hv.held, fun m hm => ?_, fun m hm => ?_⟩
    · rcases List.mem_append.mp hm with hm | hm
      · exact hv.sent m hm
      · obtain rfl := List.mem_singleton.mp hm
        exact hv.held p f hp
    · rcases List.mem_append.mp hm with hm | hm
      · exact hv.reached m hm
      · obtain rfl := List.mem_singleton.mp hm
        exact ⟨p, f, hp, Nat.le_refl _⟩

theorem versions_deliver (hv : Versions C w) (n : Nat) : Versions C (w.deliver p n) := by
  unfold deliver
  split
  · rename_i f m hp hm
    have hmem : m ∈ w.sent := List.mem_of_getElem? hm
    refine ⟨fun q f' hq => ?_, hv.sent, fun m' hm' => reached_insert hp (apply_revision f m) (hv.reached m' hm')⟩
    rw [KeyMap.get_insert] at hq
    split at hq
    · obtain rfl := Option.some.inj hq
      rcases apply_intent f m with h | ⟨hi, hr⟩
      · rw [h]
        exact hv.held p f hp
      · rw [hi, hr]
        exact hv.sent m hmem
    · exact hv.held q f' hq
  · exact hv

theorem versions_step (m : PeerMove) (hv : Versions C w) (ha : Ahead w (w.step m)) : ∃ C, Versions C (w.step m) := by
  cases m with
  | change p fed bumps => exact versions_change hv ha
  | push p => exact ⟨C, versions_push hv⟩
  | deliver p n => exact ⟨C, versions_deliver hv n⟩

theorem versions_start (nodes : KeyMap (KeyMap Node)) : Versions (fun _ => FedState.intent {}) (start nodes) where
  held p fed hp := by
    rw [start, Std.ExtTreeMap.getElem?_map] at hp
    obtain ⟨_, _, rfl⟩ := Option.map_eq_some_iff.mp hp
    rfl
  sent := nofun
  reached := nofun

end Peers

open Peers

/-- Of peers there is only the rule that each revision has one content. -/
def peerDiscipline : Discipline Peers where
  inv w := ∃ C, Versions C w
  ok := Ahead
  guar _ _ _ := True

/-- In every run whose local changes all lead to a revision that no peer has
reached, peers at the same revision hold the same. -/
theorem converged {nodes : KeyMap (KeyMap Node)} {pool : Pool Unit Peers Unit}
    (h : replication.Run Ahead ⟨Peers.start nodes, []⟩ pool) {p q : String} {fp fq : FedState}
    (hp : pool.state.fed[p]? = some fp) (hq : pool.state.fed[q]? = some fq) (hr : fp.revision = fq.revision) :
    fp.intent = fq.intent := by
  have hkept : System.Run.Kept peerDiscipline pool := by
    refine System.Run.safe (d := peerDiscipline) ?_ ?_ ?_ ?_ h
    · exact fun _ op => nomatch op
    · exact fun m w ⟨_, hv⟩ ha => ⟨versions_step m hv ha, trivial⟩
    · exact ⟨_, versions_start nodes⟩
    · rfl
  obtain ⟨_, hv⟩ := hkept.1
  rw [hv.held p fp hp, hv.held q fq hq, hr]

/-! ### Two peers -/

def smallPeers : Pool Unit Peers Unit := ⟨Peers.start ((∅ : KeyMap (KeyMap Node)).insert "a" ∅ |>.insert "b" ∅), []⟩

/-- A state with one volume. -/
def smallState (name : String) : FedState where
  volumes := (∅ : KeyMap DistVolume).insert name {
    name := name, sizeBytes := 10, pool := none, replicas := 1, rung := "node", legs := [], assembly := .singleLeg,
    createdAt := 0 }

abbrev PeerPoolMove := Move Unit Empty PeerMove

def smallPush : List PeerPoolMove :=
  [.env (.change "a" (smallState "v") true), .env (.push "a"), .env (.deliver "b" 0)]

/-- Two changes that lead to revision 1, each pushed to the other peer. -/
def smallSplit : List PeerPoolMove :=
  [.env (.change "a" (smallState "v") true), .env (.change "b" (smallState "u") true), .env (.push "a"),
    .env (.push "b"), .env (.deliver "b" 0), .env (.deliver "a" 1)]

def ahead (w w' : Peers) : Bool :=
  match w'.made.drop w.made.length with
  | [c] => w.fed.toList.all fun p => p.2.revision < c.revision
  | _ => true

theorem Peers.Ahead.of_ahead {w w' : Peers} (h : ahead w w' = true) : Ahead w w' := by
  intro c hc q fed hq
  rw [ahead, hc, List.drop_left] at h
  exact of_decide_eq_true (List.all_eq_true.mp h (q, fed) (KeyMap.mem_toList.mpr hq))

theorem converged_small : ∃ pool fa fb, replication.Run Ahead smallPeers pool ∧ pool.state.fed["a"]? = some fa ∧
    pool.state.fed["b"]? = some fb ∧ fa.revision = 1 ∧ fb.revision = 1 ∧ fa.intent = fb.intent := by
  have hr : replication.Run Ahead smallPeers (replication.final ahead smallPeers smallPush) :=
    System.run_final (fun _ _ => Peers.Ahead.of_ahead) (by decide +kernel)
  obtain ⟨fa, ha⟩ := Option.isSome_iff_exists.mp
    (show ((replication.final ahead smallPeers smallPush).state.fed["a"]?).isSome by decide +kernel)
  obtain ⟨fb, hb⟩ := Option.isSome_iff_exists.mp
    (show ((replication.final ahead smallPeers smallPush).state.fed["b"]?).isSome by decide +kernel)
  have hra : fa.revision = 1 := by
    have : ((replication.final ahead smallPeers smallPush).state.fed["a"]?).map (·.revision) = some 1 := by
      decide +kernel
    simpa [ha] using this
  have hrb : fb.revision = 1 := by
    have : ((replication.final ahead smallPeers smallPush).state.fed["b"]?).map (·.revision) = some 1 := by
      decide +kernel
    simpa [hb] using this
  exact ⟨_, fa, fb, hr, ha, hb, hra, hrb, converged hr ha hb (hra.trans hrb.symm)⟩

/-- Two changes lead to the same revision, and neither peer takes the other's. -/
theorem not_converged : ¬ ∀ (nodes : KeyMap (KeyMap Node)) (pool : Pool Unit Peers Unit),
    replication.Run (fun _ _ => True) ⟨Peers.start nodes, []⟩ pool →
    ∀ (p q : String) (fp fq : FedState), pool.state.fed[p]? = some fp → pool.state.fed[q]? = some fq →
      fp.revision = fq.revision → fp.intent = fq.intent := by
  intro h
  have hr : replication.Run (fun _ _ => True) smallPeers (replication.final (fun _ _ => true) smallPeers smallSplit) :=
    System.run_final (fun _ _ _ => trivial) (by decide +kernel)
  have hsame := h _ _ hr "a" "b"
  have hne : ∃ fa fb, (replication.final (fun _ _ => true) smallPeers smallSplit).state.fed["a"]? = some fa ∧
      (replication.final (fun _ _ => true) smallPeers smallSplit).state.fed["b"]? = some fb ∧
      fa.revision = fb.revision ∧ fa.intent.volumes["u"]? ≠ fb.intent.volumes["u"]? := by
    refine ⟨_, _, rfl, rfl, ?_, ?_⟩ <;> decide +kernel
  obtain ⟨fa, fb, ha, hb, hrev, hint⟩ := hne
  exact hint (by rw [hsame fa fb ha hb hrev])

end StormStorage
