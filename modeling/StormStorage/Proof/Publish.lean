import StormStorage.Publish
import Std.Data.String.ToNat

/-!
# No write to the Endpoints is lost

A round's put is accepted only on the object it read, so it changes nothing but
the addresses and the leader (`honest_run`).

* `publish_keeps`: what an accepted round leaves says its instance's address, and
  everything else of the object as it stood then;
* `publish_settles`: after it every round that read before is refused, and its
  own instance finds nothing to send;
* `publish_undisturbed`: a round that nobody else's write crosses ends with the
  object saying its instance.
-/

namespace StormStorage.Kube

variable {v x ep old : Value} {k k' ip : String} {port : Nat} {leader : String}

/-! ## Fields -/

namespace Value

theorem find_replaced (fields : List (String × Value)) (k k' : String) (x : Value) :
    ((fields.map fun p => if p.1 = k then (k, x) else p).find? (·.1 = k')).map Prod.snd =
      if k = k' then (fields.find? (·.1 = k')).map fun _ => x else (fields.find? (·.1 = k')).map Prod.snd := by
  induction fields with
  | nil => simp
  | cons p fields ih =>
    by_cases hp : p.1 = k <;> by_cases hk : k = k' <;> by_cases hp' : p.1 = k' <;>
      simp_all

theorem field_setField (h : v.isObject = true ∨ v = null) :
    (v.setField k x).field k' = if k = k' then x else v.field k' := by
  cases v with
  | object fields =>
    rw [setField]
    split
    · rename_i hany
      rw [field, field, find_replaced]
      split
      · rename_i hk
        obtain ⟨p, hp, hpk⟩ := List.any_eq_true.mp hany
        have hsome : (fields.find? (·.1 = k)).isSome := List.find?_isSome.mpr ⟨p, hp, hpk⟩
        obtain ⟨q, hq⟩ := Option.isSome_iff_exists.mp hsome
        rw [← hk, hq]
        rfl
      · rfl
    · rename_i hany
      rw [field, field, List.find?_append]
      split
      · rename_i hk
        have hnone : fields.find? (·.1 = k') = none := by
          rw [List.find?_eq_none]
          intro p hp hpk
          exact hany (List.any_eq_true.mpr ⟨p, hp, by simpa [hk] using hpk⟩)
        rw [hnone]
        simp [hk]
      · rename_i hk
        cases fields.find? (·.1 = k') <;> simp [hk]
  | null =>
    by_cases hk : k = k' <;> simp [setField, field, hk]
  | _ => simp [isObject] at h

theorem isObject_setField (h : v.isObject = true ∨ v = null) : (v.setField k x).isObject = true := by
  cases v <;> simp_all [setField, isObject]

/-- What is no object has no fields. -/
theorem field_of_not_isObject (h : v.isObject = false) : v.field k = null := by
  cases v <;> simp_all [isObject, field]

end Value

/-! ## Endpoints objects -/

/-- The object and its metadata are objects, as the apiserver's are. -/
def WellFormed (ep : Value) : Prop := ep.isObject = true ∧ (ep.field "metadata").isObject = true

/-- The object as an answer carries it. -/
def stamped (version : Nat) (ep : Value) : Value :=
  ep.setField "metadata" ((ep.field "metadata").setField "resourceVersion" (.string (Nat.repr version)))

/-- Only the addresses, the leader and the version may differ. -/
structure OnlySays (old new : Value) : Prop where
  top : ∀ k, k ≠ "subsets" → k ≠ "metadata" → new.field k = old.field k
  metadata : ∀ k, k ≠ "annotations" → k ≠ "resourceVersion" →
    (new.field "metadata").field k = (old.field "metadata").field k
  annotations : ∀ k, k ≠ LEADER_ANNOTATION → (annotations new).field k = (annotations old).field k

theorem field_stamped (h : WellFormed ep) (version : Nat) (k : String) :
    (stamped version ep).field k =
      if "metadata" = k then (ep.field "metadata").setField "resourceVersion" (.string (Nat.repr version)) else ep.field k :=
  Value.field_setField (.inl h.1)

theorem metadata_stamped (h : WellFormed ep) (version : Nat) (k : String) :
    ((stamped version ep).field "metadata").field k =
      if "resourceVersion" = k then .string (Nat.repr version) else (ep.field "metadata").field k := by
  rw [field_stamped h, if_pos rfl, Value.field_setField (.inl h.2)]

theorem annotations_stamped (h : WellFormed ep) (version : Nat) : annotations (stamped version ep) = annotations ep := by
  rw [annotations, metadata_stamped h, if_neg (by decide)]
  rfl

theorem wellFormed_stamped (h : WellFormed ep) (version : Nat) : WellFormed (stamped version ep) := by
  refine ⟨Value.isObject_setField (.inl h.1), ?_⟩
  rw [field_stamped h, if_pos rfl]
  exact Value.isObject_setField (.inl h.2)

theorem endpointsSay_congr {ep' : Value} (hs : ep.field "subsets" = ep'.field "subsets")
    (ha : annotations ep = annotations ep') : endpointsSay ep ip port leader = endpointsSay ep' ip port leader := by
  rw [endpointsSay, endpointsSay, hs, ha]

theorem endpointsSay_stamped (h : WellFormed ep) (version : Nat) :
    endpointsSay (stamped version ep) ip port leader = endpointsSay ep ip port leader :=
  endpointsSay_congr (by rw [field_stamped h, if_neg (by decide)]) (annotations_stamped h version)

/-- These addresses and this leader are what the object should say. -/
theorem endpointsSay_of (hs : ep.field "subsets" = subsetsOf ip port)
    (ha : (annotations ep).field LEADER_ANNOTATION = .string leader) : endpointsSay ep ip port leader = true := by
  rw [endpointsSay, hs, ha]
  simp [subsetsOf, Value.items, Value.asArray, Value.field, Value.asStr, Value.isPort]

theorem endpointsSay_new (ns name : String) :
    endpointsSay (newEndpoints ns name ip port leader) ip port leader = true :=
  endpointsSay_of rfl rfl

theorem wellFormed_new (ns name : String) : WellFormed (newEndpoints ns name ip port leader) :=
  ⟨rfl, rfl⟩

/-! ## What a round writes -/

/-- The object with its subsets set, and with annotations, if only none. -/
structure Prepared (ip : String) (port : Nat) (old ep : Value) : Prop where
  wellFormed : WellFormed ep
  subsets : ep.field "subsets" = subsetsOf ip port
  top : ∀ k, k ≠ "subsets" → k ≠ "metadata" → ep.field k = old.field k
  metadata : ∀ k, k ≠ "annotations" → (ep.field "metadata").field k = (old.field "metadata").field k
  annotations : ∀ k, (annotations ep).field k = (Kube.annotations old).field k

theorem prepared_subsets (h : WellFormed old) : Prepared ip port old (old.setField "subsets" (subsetsOf ip port)) := by
  have hfield : ∀ k, (old.setField "subsets" (subsetsOf ip port)).field k =
      if "subsets" = k then subsetsOf ip port else old.field k := fun k => Value.field_setField (.inl h.1)
  have hmeta : (old.setField "subsets" (subsetsOf ip port)).field "metadata" = old.field "metadata" := by
    rw [hfield, if_neg (by decide)]
  refine ⟨⟨Value.isObject_setField (.inl h.1), hmeta ▸ h.2⟩, by rw [hfield, if_pos rfl], fun k hk _ => ?_, fun k _ => by rw [hmeta],
    fun k => by rw [annotations, hmeta]; rfl⟩
  rw [hfield, if_neg (Ne.symm hk)]

theorem field_setMetadata (h : WellFormed ep) (notes : Value) (k : String) :
    (ep.setField "metadata" ((ep.field "metadata").setField "annotations" notes)).field k =
      if "metadata" = k then (ep.field "metadata").setField "annotations" notes else ep.field k :=
  Value.field_setField (.inl h.1)

theorem metadata_setMetadata (h : WellFormed ep) (notes : Value) (k : String) :
    ((ep.setField "metadata" ((ep.field "metadata").setField "annotations" notes)).field "metadata").field k =
      if "annotations" = k then notes else (ep.field "metadata").field k := by
  rw [field_setMetadata h, if_pos rfl, Value.field_setField (.inl h.2)]

theorem wellFormed_setMetadata (h : WellFormed ep) (notes : Value) :
    WellFormed (ep.setField "metadata" ((ep.field "metadata").setField "annotations" notes)) := by
  refine ⟨Value.isObject_setField (.inl h.1), ?_⟩
  rw [field_setMetadata h, if_pos rfl]
  exact Value.isObject_setField (.inl h.2)

theorem Prepared.setMetadata (h : Prepared ip port old ep) {notes : Value}
    (hn : ∀ k, notes.field k = (Kube.annotations old).field k) :
    Prepared ip port old (ep.setField "metadata" ((ep.field "metadata").setField "annotations" notes)) where
  wellFormed := wellFormed_setMetadata h.wellFormed notes
  subsets := by rw [field_setMetadata h.wellFormed, if_neg (by decide), h.subsets]
  top k hs hm := by rw [field_setMetadata h.wellFormed, if_neg (Ne.symm hm), h.top k hs hm]
  metadata k ha := by rw [metadata_setMetadata h.wellFormed, if_neg (Ne.symm ha), h.metadata k ha]
  annotations k := by rw [Kube.annotations, metadata_setMetadata h.wellFormed, if_pos rfl, hn]

/-- What a round makes of the object it read. -/
structure Tells (ip : String) (port : Nat) (leader : String) (old new : Value) : Prop where
  wellFormed : WellFormed new
  tells : endpointsSay new ip port leader = true
  version : ApiServer.versionOf new = ApiServer.versionOf old
  only : OnlySays old new

theorem Prepared.tells (h : Prepared ip port old ep) (ha : (Kube.annotations ep).isObject = true) (leader : String) :
    Tells ip port leader old (ep.setField "metadata" ((ep.field "metadata").setField "annotations"
      ((Kube.annotations ep).setField LEADER_ANNOTATION (.string leader)))) := by
  have hnotes : ∀ k, (Kube.annotations (ep.setField "metadata" ((ep.field "metadata").setField "annotations"
      ((Kube.annotations ep).setField LEADER_ANNOTATION (.string leader))))).field k =
      if LEADER_ANNOTATION = k then .string leader else (Kube.annotations old).field k := by
    intro k
    rw [Kube.annotations, metadata_setMetadata h.wellFormed, if_pos rfl, Value.field_setField (.inl ha), h.annotations]
  refine ⟨wellFormed_setMetadata h.wellFormed _, endpointsSay_of ?_ ?_, ?_, fun k hs hm => ?_, fun k hk _ => ?_, fun k hk => ?_⟩
  · rw [field_setMetadata h.wellFormed, if_neg (by decide), h.subsets]
  · rw [hnotes, if_pos rfl]
  · rw [ApiServer.versionOf, metadata_setMetadata h.wellFormed, if_neg (by decide), h.metadata _ (by decide)]
    rfl
  · rw [field_setMetadata h.wellFormed, if_neg (Ne.symm hm), h.top k hs hm]
  · rw [metadata_setMetadata h.wellFormed, if_neg (Ne.symm hk), h.metadata k hk]
  · rw [hnotes, if_neg (Ne.symm hk)]

theorem withEndpoints_tells (h : WellFormed old) (ip : String) (port : Nat) (leader : String) :
    Tells ip port leader old (withEndpoints old ip port leader) := by
  have hp : Prepared ip port old _ := prepared_subsets h
  rw [withEndpoints]
  split
  · rename_i ha
    exact hp.tells ha leader
  · rename_i ha
    have hnone : ∀ k, (Value.object []).field k = (annotations old).field k := fun k => by
      have hnull : (annotations (old.setField "subsets" (subsetsOf ip port))).field k = .null :=
        Value.field_of_not_isObject (by simpa using ha)
      rw [← hp.annotations, hnull]
      rfl
    refine (hp.setMetadata hnone).tells ?_ leader
    rw [annotations, metadata_setMetadata hp.wellFormed, if_pos rfl]
    rfl

/-- A round's put is of the version it read. -/
theorem tells_stamped (h : WellFormed old) (version : Nat) (ip : String) (port : Nat) (leader : String) :
    let new := withEndpoints (stamped version old) ip port leader
    WellFormed new ∧ endpointsSay new ip port leader = true ∧ ApiServer.versionOf new = .string (Nat.repr version) ∧
      OnlySays old new := by
  have ht := withEndpoints_tells (wellFormed_stamped h version) ip port leader
  refine ⟨ht.wellFormed, ht.tells, ?_, fun k hs hm => ?_, fun k ha hv => ?_, fun k hk => ?_⟩
  · rw [ht.version, ApiServer.versionOf, metadata_stamped h, if_pos rfl]
  · rw [ht.only.top k hs hm, field_stamped h, if_neg (Ne.symm hm)]
  · rw [ht.only.metadata k ha hv, metadata_stamped h, if_neg (Ne.symm hv)]
  · rw [ht.only.annotations k hk, annotations_stamped h]

/-! ## The run -/

namespace Publication

variable {ns name inst : String} {w : Publication} {r : Round} {m : Move}

/-- Whoever else writes the object writes one that is well formed. -/
def Move.wellFormed : Move → Prop
  | .edit (some ep) => WellFormed ep
  | _ => True

/-- What a round is about to send was made of the object of some version, which
is the object there is while that is the version. -/
def HonestRound (ns name inst : String) (server : ApiServer) (r : Round) : Prop :=
  r.sending = (.post, newEndpoints ns name r.ip r.port inst) ∨
  ∃ version old, version ≤ server.version ∧ (version = server.version → server.object = some old) ∧ WellFormed old ∧
    r.sending = (.put, withEndpoints (stamped version old) r.ip r.port inst)

structure Honest (ns name : String) (w : Publication) : Prop where
  object : ∀ ep, w.server.object = some ep → WellFormed ep
  rounds : ∀ inst r, w.rounds[inst]? = some r → HonestRound ns name inst w.server r

theorem get_eq (server : ApiServer) : server.get = server.object.map (stamped server.version) := rfl

/-- A write ages every round. -/
theorem HonestRound.write {server : ApiServer} (h : HonestRound ns name inst server r) (ep : Option Value) :
    HonestRound ns name inst (server.write ep) r := by
  rcases h with h | ⟨version, old, hle, hcur, hold, hr⟩
  · exact .inl h
  · refine .inr ⟨version, old, Nat.le_succ_of_le hle, fun he => ?_, hold, hr⟩
    have : version = server.version + 1 := he
    omega

theorem text_version (version : Nat) : (Value.string (Nat.repr version)).text = some (Nat.repr version) := by
  rw [Value.text, Value.asStr, Option.filter_some, if_pos (by simp)]

/-- A put is done when nothing was written since the read. -/
theorem handle_put {server : ApiServer} (hold : WellFormed old) (version : Nat) (ip : String) (port : Nat) (leader : String) :
    server.handle (.put, withEndpoints (stamped version old) ip port leader) =
      if server.object.isSome ∧ version = server.version then
        (true, server.write (some (withEndpoints (stamped version old) ip port leader)))
      else (false, server) := by
  obtain ⟨-, -, hversion, -⟩ := tells_stamped hold version ip port leader
  have hiff : (Nat.repr version = Nat.repr server.version) ↔ version = server.version :=
    ⟨fun h => Nat.repr_injective h, fun h => by rw [h]⟩
  rw [ApiServer.handle, hversion, text_version]
  simp only [Option.all_some, decide_eq_true_eq, hiff]

/-- What the arrival of a round does: it is refused, or leaves an object made of the
one that was there. -/
theorem handle_cases (h : Honest ns name w) (hr : w.rounds[inst]? = some r) :
    (w.server.handle r.sending).2 = w.server ∨
      ∃ new, (w.server.handle r.sending).2 = w.server.write (some new) ∧ WellFormed new ∧
        endpointsSay new r.ip r.port inst = true ∧ ∀ old, w.server.object = some old → OnlySays old new := by
  rcases h.rounds inst r hr with hs | ⟨version, old, -, hcur, hold, hs⟩
  · rw [hs, ApiServer.handle]
    split
    · exact .inl rfl
    · rename_i hnone
      refine .inr ⟨_, rfl, wellFormed_new .., endpointsSay_new .., fun old ho => ?_⟩
      simp [ho] at hnone
  · obtain ⟨hnew, htell, -, honly⟩ := tells_stamped hold version r.ip r.port inst
    rw [hs, handle_put hold]
    split
    · rename_i hacc
      refine .inr ⟨_, rfl, hnew, htell, fun old' ho => ?_⟩
      rw [hcur hacc.2] at ho
      exact Option.some.inj ho ▸ honly
    · exact .inl rfl

theorem Honest.server (h : Honest ns name w) {ep : Option Value} (hep : ∀ x, ep = some x → WellFormed x) :
    Honest ns name { w with server := w.server.write ep } :=
  ⟨hep, fun inst r hr => (h.rounds inst r hr).write ep⟩

theorem Honest.erase (h : Honest ns name w) (inst : String) :
    Honest ns name { w with rounds := w.rounds.erase inst } := by
  refine ⟨h.object, fun j r hr => h.rounds j r ?_⟩
  rw [KeyMap.get_erase] at hr
  split at hr
  · cases hr
  · exact hr

theorem honest_send (h : Honest ns name w) (inst : String) : Honest ns name (w.send inst) := by
  rw [send]
  split
  · exact h
  · rename_i r hr
    rcases handle_cases h hr with hsame | ⟨new, hnew, hwf, -⟩
    · rw [hsame]
      exact h.erase inst
    · rw [hnew]
      exact (h.erase inst).server fun x hx => Option.some.inj hx ▸ hwf

/-- What a round sends was made of what it read. -/
theorem honest_request (h : Honest ns name w) {ip : String} {port : Nat} {sending : Verb × Value}
    (hs : endpointsRequest ns name ip port inst w.server.get = some sending) :
    HonestRound ns name inst w.server { ip := ip, port := port, sending := sending } := by
  rw [get_eq] at hs
  cases ho : w.server.object with
  | none =>
    rw [ho] at hs
    exact .inl (Option.some.inj hs).symm
  | some old =>
    rw [ho, Option.map_some, endpointsRequest] at hs
    split at hs
    · cases hs
    · exact .inr ⟨w.server.version, old, Nat.le_refl _, fun _ => ho, h.object old ho, (Option.some.inj hs).symm⟩

theorem honest_read (h : Honest ns name w) (inst ip : String) (port : Nat) :
    Honest ns name (w.read ns name inst ip port) := by
  rw [read]
  split
  · exact h.erase inst
  · rename_i sending hs
    refine ⟨h.object, fun j r hr => ?_⟩
    rw [KeyMap.get_insert] at hr
    split at hr
    · rename_i hj
      obtain rfl := Option.some.inj hr
      exact hj ▸ honest_request h hs
    · exact h.rounds j r hr

theorem honest_step (h : Honest ns name w) (hm : m.wellFormed) : Honest ns name (w.step ns name m) := by
  cases m with
  | read inst ip port => exact honest_read h inst ip port
  | send inst => exact honest_send h inst
  | edit ep =>
    refine h.server fun x hx => ?_
    subst hx
    exact hm

theorem honest_run {moves : List Move} (hwf : ∀ m ∈ moves, m.wellFormed) (h : Honest ns name w) :
    Honest ns name (w.run ns name moves) := by
  induction moves generalizing w with
  | nil => exact h
  | cons m moves ih =>
    exact ih (fun x hx => hwf x (List.mem_cons_of_mem _ hx)) (honest_step h (hwf m (List.mem_cons_self ..)))

theorem honest_start : Honest ns name {} :=
  ⟨fun ep h => (by cases h), fun inst r h => (by simp at h)⟩

/-- Whatever order the rounds of the instances and the edits of others come in, a
round is refused, or the object is left saying its instance's address, with
everything else of it as it then stood. -/
theorem publish_keeps {moves : List Move} (hwf : ∀ m ∈ moves, m.wellFormed) {inst : String} {r : Round}
    (hr : (run ns name {} moves).rounds[inst]? = some r) :
    let w := run ns name {} moves
    (w.send inst).server = w.server ∨
      ∃ new, (w.send inst).server = w.server.write (some new) ∧ endpointsSay new r.ip r.port inst = true ∧
        ∀ old, w.server.object = some old → OnlySays old new := by
  intro w
  have hsend : (w.send inst).server = (w.server.handle r.sending).2 := by rw [send, hr]
  rw [hsend]
  rcases handle_cases (honest_run hwf honest_start) hr with h | ⟨new, hnew, -, htell, honly⟩
  · exact .inl h
  · exact .inr ⟨new, hnew, htell, honly⟩

/-- Two instances read that there is no object, and one of them has made it. -/
theorem publish_keeps_two :
    let w := run "stormblock-system" "stormstorage" {}
      [.read "a" "10.0.0.1" 9093, .read "b" "10.0.0.2" 9093, .send "b"]
    ∃ r, w.rounds["a"]? = some r ∧ ((w.send "a").server = w.server ∨
      ∃ new, (w.send "a").server = w.server.write (some new) ∧ endpointsSay new r.ip r.port "a" = true ∧
        ∀ old, w.server.object = some old → OnlySays old new) := by
  intro w
  obtain ⟨r, hr⟩ : ∃ r, w.rounds["a"]? = some r := Option.isSome_iff_exists.mp (by decide +kernel)
  exact ⟨r, hr, publish_keeps (by simp [Move.wellFormed]) hr⟩

/-! ## After a round -/

/-- The object says the instance, and whatever else is on its way will be refused. -/
structure Settled (ip : String) (port : Nat) (inst : String) (w : Publication) : Prop where
  told : ∃ ep, w.server.object = some ep ∧ WellFormed ep ∧ endpointsSay ep ip port inst = true
  stale : ∀ (j : String) (r : Round), w.rounds[j]? = some r → (w.server.handle r.sending).2 = w.server

/-- The moves of a settled state: arrivals, and reads by the instance itself. -/
def Move.settled (ip : String) (port : Nat) (inst : String) : Move → Prop
  | .read j ip' port' => j = inst ∧ ip' = ip ∧ port' = port
  | .send _ => True
  | .edit _ => False

theorem Settled.erase (h : Settled ip port inst w) (j : String) : Settled ip port inst { w with rounds := w.rounds.erase j } := by
  refine ⟨h.told, fun i r hr => h.stale i r ?_⟩
  rw [KeyMap.get_erase] at hr
  split at hr
  · cases hr
  · exact hr

theorem settled_step (h : Settled ip port inst w) (hm : m.settled ip port inst) :
    Settled ip port inst (w.step ns name m) ∧ (w.step ns name m).server = w.server := by
  cases m with
  | read j ip' port' =>
    obtain ⟨rfl, rfl, rfl⟩ := hm
    obtain ⟨ep, ho, hwf, htell⟩ := h.told
    have hnone : endpointsRequest ns name ip' port' j w.server.get = none := by
      rw [get_eq, ho, Option.map_some, endpointsRequest, if_pos (by rw [endpointsSay_stamped hwf, htell])]
    have hread : w.step ns name (.read j ip' port') = { w with rounds := w.rounds.erase j } := by
      rw [step, read, hnone]
    rw [hread]
    exact ⟨h.erase j, rfl⟩
  | send j =>
    rw [step, send]
    split
    · exact ⟨h, rfl⟩
    · rename_i r hr
      rw [h.stale j r hr]
      exact ⟨h.erase j, rfl⟩
  | edit ep => exact absurd hm id

theorem settled_run {later : List Move} (h : Settled ip port inst w) (hm : ∀ m ∈ later, m.settled ip port inst) :
    (w.run ns name later).server = w.server := by
  induction later generalizing w with
  | nil => rfl
  | cons m later ih =>
    have hstep : Settled ip port inst (w.step ns name m) ∧ _ := settled_step h (hm m (List.mem_cons_self ..))
    exact (ih hstep.1 fun x hx => hm x (List.mem_cons_of_mem _ hx)).trans hstep.2

/-- What was read before a write is refused after it. -/
theorem HonestRound.stale {server : ApiServer} (h : HonestRound ns name inst server r) (new : Value) :
    ((server.write (some new)).handle r.sending).2 = server.write (some new) := by
  rcases h with hs | ⟨version, old, hle, -, hold, hs⟩
  · rw [hs, ApiServer.handle]
    rfl
  · rw [hs, handle_put hold, if_neg fun hc => ?_]
    have : version = server.version + 1 := hc.2
    omega

/-- After a round that was accepted the object stays as it is for all rounds that read
before it, and the instance finds nothing more to send. -/
theorem publish_settles {moves later : List Move} (hwf : ∀ m ∈ moves, m.wellFormed) {inst : String} {r : Round}
    (hr : (run ns name {} moves).rounds[inst]? = some r)
    (hacc : ((run ns name {} moves).send inst).server ≠ (run ns name {} moves).server)
    (hlater : ∀ m ∈ later, m.settled r.ip r.port inst) :
    let w := (run ns name {} moves).send inst
    (w.run ns name later).server = w.server ∧
      ∃ ep, w.server.object = some ep ∧ endpointsSay ep r.ip r.port inst = true := by
  intro w
  have hh : Honest ns name (run ns name {} moves) := honest_run hwf honest_start
  have hsend : w.server = ((run ns name {} moves).server.handle r.sending).2 := by
    simp only [w, send, hr]
  have hrounds : w.rounds = (run ns name {} moves).rounds.erase inst := by
    simp only [w, send, hr]
  rcases handle_cases hh hr with h | ⟨new, hnew, hwfn, htell, -⟩
  · exact absurd (hsend.trans h) hacc
  · have hw : w.server = (run ns name {} moves).server.write (some new) := hsend.trans hnew
    have hs : Settled r.ip r.port inst w := by
      refine ⟨⟨new, by rw [hw]; rfl, hwfn, htell⟩, fun j r' hr' => ?_⟩
      rw [hrounds, KeyMap.get_erase] at hr'
      split at hr'
      · cases hr'
      · rw [hw]
        exact (hh.rounds j r' hr').stale new
    exact ⟨settled_run hs hlater, new, by rw [hw]; rfl, htell⟩

theorem publish_settles_two :
    let w := run "stormblock-system" "stormstorage" {} [.read "a" "10.0.0.1" 9093, .read "b" "10.0.0.2" 9093]
    ((w.send "b").run "stormblock-system" "stormstorage" [.send "a"]).server = (w.send "b").server := by
  intro w
  obtain ⟨r, hr⟩ : ∃ r, w.rounds["b"]? = some r := Option.isSome_iff_exists.mp (by decide +kernel)
  have hacc : (w.send "b").server ≠ w.server := fun h => by
    have hv : (w.send "b").server.version = w.server.version := congrArg ApiServer.version h
    revert hv
    decide +kernel
  exact (publish_settles (by simp [Move.wellFormed]) hr hacc (by simp [Move.settled])).1

/-! ## A round that nobody crosses -/

/-- A move of another instance, or of no instance. -/
def Move.others (inst : String) : Move → Prop
  | .read j _ _ => j ≠ inst
  | .send j => j ≠ inst
  | .edit _ => True

theorem rounds_others (hm : m.others inst) : (w.step ns name m).rounds[inst]? = w.rounds[inst]? := by
  cases m with
  | read j ip port =>
    have hj : j ≠ inst := hm
    rw [step, read]
    split
    · rw [KeyMap.get_erase, if_neg hj]
    · rw [KeyMap.get_insert_ne _ _ hj]
  | send j =>
    have hj : j ≠ inst := hm
    rw [step, send]
    split
    · rfl
    · rw [KeyMap.get_erase, if_neg hj]
  | edit ep => rfl

theorem rounds_run {between : List Move} (hm : ∀ m ∈ between, m.others inst) :
    (w.run ns name between).rounds[inst]? = w.rounds[inst]? := by
  induction between generalizing w with
  | nil => rfl
  | cons m between ih =>
    exact (ih fun x hx => hm x (List.mem_cons_of_mem _ hx)).trans (rounds_others (hm m (List.mem_cons_self ..)))

/-- An instance whose round nobody else's write crosses has the object say its
address, whoever made the object say what before. -/
theorem publish_undisturbed {moves between : List Move} (hwf : ∀ m ∈ moves, m.wellFormed) {inst ip : String} {port : Nat}
    (hothers : ∀ m ∈ between, m.others inst)
    (hsame : (((run ns name {} moves).read ns name inst ip port).run ns name between).server = (run ns name {} moves).server) :
    ∃ ep, ((((run ns name {} moves).read ns name inst ip port).run ns name between).send inst).server.object = some ep ∧
      endpointsSay ep ip port inst = true := by
  have hh : Honest ns name (run ns name {} moves) := honest_run hwf honest_start
  generalize run ns name {} moves = w at hh hsame
  have hrounds : ((w.read ns name inst ip port).run ns name between).rounds[inst]? = _ := rounds_run hothers
  rw [send, hrounds]
  cases hreq : endpointsRequest ns name ip port inst w.server.get with
  | none =>
    have hread : (w.read ns name inst ip port).rounds[inst]? = none := by
      rw [read, hreq, KeyMap.get_erase, if_pos rfl]
    rw [hread]
    dsimp only
    rw [hsame]
    rw [get_eq] at hreq
    cases ho : w.server.object with
    | none => simp [ho, endpointsRequest] at hreq
    | some ep =>
      refine ⟨ep, rfl, ?_⟩
      rw [ho, Option.map_some, endpointsRequest] at hreq
      split at hreq
      · rename_i htell
        rwa [endpointsSay_stamped (hh.object ep ho)] at htell
      · cases hreq
  | some sending =>
    have hread : (w.read ns name inst ip port).rounds[inst]? = some { ip := ip, port := port, sending := sending } := by
      rw [read, hreq, KeyMap.get_insert_self]
    rw [hread]
    dsimp only
    rw [hsame]
    rw [get_eq] at hreq
    cases ho : w.server.object with
    | none =>
      rw [ho] at hreq
      obtain rfl := Option.some.inj hreq
      refine ⟨newEndpoints ns name ip port inst, ?_, endpointsSay_new ns name⟩
      rw [ApiServer.handle, ho]
      rfl
    | some ep =>
      rw [ho, Option.map_some, endpointsRequest] at hreq
      split at hreq
      · cases hreq
      · obtain rfl := Option.some.inj hreq
        refine ⟨_, ?_, (tells_stamped (hh.object ep ho) w.server.version ip port inst).2.1⟩
        rw [handle_put (hh.object ep ho), if_pos ⟨by rw [ho]; rfl, rfl⟩]
        rfl

theorem publish_undisturbed_one :
    ∃ ep, ((((run "stormblock-system" "stormstorage" {} []).read "stormblock-system" "stormstorage" "a" "10.0.0.1" 9093).run
      "stormblock-system" "stormstorage" []).send "a").server.object = some ep ∧
        endpointsSay ep "10.0.0.1" 9093 "a" = true :=
  publish_undisturbed (by simp) (by simp) rfl

end Publication

end StormStorage.Kube
