import Mathlib.Data.List.Induction
import StormStorage.Head.Sync

/-!
# Arrays and their members

Which array of a head is a volume's, which member of it a leg is, and which
member a leg is recorded as.

* `memberOf_byIdentity_iff`: the leg's own member is found unless another one,
  standing before it, has the leg's address;
* `matchArray_safe_iff`: an array is adopted only for its exact members when
  none that has the drives also has a member without a path;
* `nameMembers_assigned_iff`: each leg is recorded as the member that is its
  drive, and no two legs as one, under `Assignable`.
-/

namespace StormStorage

/-- The addresses an array's members stand at. -/
def EngineArray.paths (a : EngineArray) : List String := a.members.filterMap (·.devicePath)

/-- The addresses are these, in whatever order. -/
def EngineArray.Over (a : EngineArray) (uris : List String) : Prop := a.paths ⊆ uris ∧ uris ⊆ a.paths

namespace Orchestrate

/-! ## The member of a leg -/

/-- The member carries the uuid recorded for the leg. -/
def HasUuid (leg : Leg) (m : MemberReading) : Prop := leg.memberUuid.any (·.toLower = m.uuid.toLower)

/-- The member stands at the leg's address. -/
def HasUri (leg : Leg) (m : MemberReading) : Prop := leg.export.any (·.driveUri = m.devicePath)

instance (leg : Leg) : DecidablePred (HasUuid leg) := fun _ => inferInstanceAs (Decidable (_ = _))

instance (leg : Leg) : DecidablePred (HasUri leg) := fun _ => inferInstanceAs (Decidable (_ = _))

/-- The member with the recorded uuid is the one found; the address decides
only where no member has it. -/
structure ByIdentity (leg : Leg) (r : ArrayReading) : Prop where
  uuid : ∀ m ∈ r.members, HasUuid leg m → ∃ m', memberOf leg r = some m' ∧ HasUuid leg m'
  uri : ∀ m', memberOf leg r = some m' → ¬ HasUuid leg m' → HasUri leg m' ∧ ∀ m ∈ r.members, ¬ HasUuid leg m

theorem memberOf_eq (leg : Leg) (r : ArrayReading) :
    memberOf leg r = r.members.find? fun m => HasUuid leg m ∨ HasUri leg m := rfl

theorem mem_of_memberOf {leg : Leg} {r : ArrayReading} {m : MemberReading} (h : memberOf leg r = some m) :
    m ∈ r.members ∧ (HasUuid leg m ∨ HasUri leg m) := by
  rw [memberOf_eq] at h
  exact ⟨List.mem_of_find?_eq_some h, by simpa using List.find?_some h⟩

/-- The first of two kinds of element is of the first kind when one of it is
there and none of the second stands before. -/
theorem find?_or_left {α : Type} {p q : α → Prop} [DecidablePred p] [DecidablePred q] {l : List α}
    (hp : ∃ x ∈ l, p x) : (∃ y, l.find? (fun x => p x ∨ q x) = some y ∧ p y) ↔ ∀ x ∈ l.takeWhile (¬ p ·), ¬ q x := by
  induction l with
  | nil => simp at hp
  | cons a l ih =>
    by_cases ha : p a
    · simp [ha]
    · have hl : ∃ x ∈ l, p x := by
        obtain ⟨x, hx, hpx⟩ := hp
        rcases List.mem_cons.mp hx with rfl | hx
        · exact absurd hpx ha
        · exact ⟨x, hx, hpx⟩
      by_cases hq : q a
      · simp [ha, hq]
      · have hstep : (a :: l).find? (fun x => p x ∨ q x) = l.find? fun x => p x ∨ q x := by simp [ha, hq]
        rw [hstep, ih hl]
        simp [ha, hq]

/-- A leg's member is found by its uuid when none that stands before the first
to have it is at the leg's address. -/
theorem memberOf_byIdentity_iff (leg : Leg) (r : ArrayReading) :
    ByIdentity leg r ↔ ((∃ m ∈ r.members, HasUuid leg m) →
      ∀ m ∈ r.members.takeWhile (¬ HasUuid leg ·), ¬ HasUri leg m) := by
  constructor
  · intro h hex
    obtain ⟨m, hm, hu⟩ := hex
    have hfound := h.uuid m hm hu
    rw [memberOf_eq] at hfound
    exact (find?_or_left ⟨m, hm, hu⟩).mp hfound
  · intro h
    have huuid : ∀ m ∈ r.members, HasUuid leg m → ∃ m', memberOf leg r = some m' ∧ HasUuid leg m' := by
      intro m hm hu
      rw [memberOf_eq]
      exact (find?_or_left ⟨m, hm, hu⟩).mpr (h ⟨m, hm, hu⟩)
    refine ⟨huuid, fun m' hm' hno => ⟨(mem_of_memberOf hm').2.resolve_left hno, fun m hm hu => ?_⟩⟩
    obtain ⟨m'', hm'', hu'⟩ := huuid m hm hu
    rw [hm'] at hm''
    cases hm''
    exact hno hu'

/-- A leg at an address, recorded as the member `m1`. -/
def movedLeg : Leg :=
  { node := "n1", volumeId := some "v1", state := .created, memberUuid := some "m1"
    «export» := some { nqn := "nqn.a", traddr := "10.0.0.1", trsvcid := 4420, nsid := 1 } }

/-- After a replacement another member stands at that address, before its own. -/
def movedReading : ArrayReading where
  head := "n2"
  arrayId := "r1"
  memberDataBytes := 8
  members := [{ uuid := "m2", devicePath := movedLeg.uri, state := "failed" },
    { uuid := "m1", devicePath := "nvme-tcp://10.0.0.9:4420/nqn.b?nsid=1", state := "active" }]

theorem memberOf_other_address : ¬ ByIdentity movedLeg movedReading := by
  intro h
  obtain ⟨m, hm, hu⟩ := h.uuid
    { uuid := "m1", devicePath := "nvme-tcp://10.0.0.9:4420/nqn.b?nsid=1", state := "active" } (by simp [movedReading]) (by decide +kernel)
  have hno : (memberOf movedLeg movedReading).all (¬ HasUuid movedLeg ·) = true := by decide +kernel
  rw [hm] at hno
  simp [hu] at hno

/-! ## The array of a volume -/

/-- No two of the arrays have a drive in common. -/
def Apart (arrays : List EngineArray) : Prop := arrays.Pairwise fun a b => List.Disjoint a.paths b.paths

inductive MatchKind where
  | none
  | exact
  | conflict
deriving DecidableEq

def ArrayMatch.kind : ArrayMatch → MatchKind
  | .none => .none
  | .exact _ => .exact
  | .conflict .. => .conflict

/-- What adopting an array on the answer rests on. -/
structure MatchSafe (arrays : List EngineArray) (uris : List String) : Prop where
  exact : ∀ a, matchArray arrays uris = .exact a → a ∈ arrays ∧
    (∀ m ∈ a.members, ∃ u ∈ uris, m.devicePath = some u) ∧ ∀ u ∈ uris, ∃ m ∈ a.members, m.devicePath = some u
  none : matchArray arrays uris = .none → ∀ a ∈ arrays, ∀ m ∈ a.members, ∀ u ∈ uris, m.devicePath ≠ some u
  order : ∀ arrays', arrays'.Perm arrays → (matchArray arrays' uris).kind = (matchArray arrays uris).kind

theorem mem_paths {a : EngineArray} {u : String} : u ∈ a.paths ↔ ∃ m ∈ a.members, m.devicePath = some u := by
  simp [EngineArray.paths]

theorem not_disjoint_iff_hit {paths uris : List String} :
    ((paths.filter (· ∈ uris)).insertionSort (· ≤ ·)).head? = none ↔ paths.Disjoint uris := by
  have hperm := List.perm_insertionSort (· ≤ ·) (paths.filter (· ∈ uris))
  have hnil : (paths.filter (· ∈ uris)).insertionSort (· ≤ ·) = [] ↔ paths.filter (· ∈ uris) = [] :=
    ⟨fun h => by rw [h] at hperm; exact hperm.symm.eq_nil, fun h => by rw [h]; rfl⟩
  rw [List.head?_eq_none_iff, hnil, List.filter_eq_nil_iff]
  simp [List.Disjoint]

theorem matchArray_not_over {a : EngineArray} {uris : List String} (ho : ¬ a.Over uris) (rest : List EngineArray) :
    matchArray (a :: rest) uris = match ((a.paths.filter (· ∈ uris)).insertionSort (· ≤ ·)).head? with
      | some uri => .conflict (a.id.getD "?") uri
      | Option.none => matchArray rest uris := by
  rw [matchArray]
  exact if_neg ho

/-- One array more: adopted, in the way, or passed over. -/
theorem matchArray_cons (a : EngineArray) (rest : List EngineArray) (uris : List String) :
    (a.Over uris ∧ matchArray (a :: rest) uris = .exact a) ∨
    (¬ a.Over uris ∧ ¬ a.paths.Disjoint uris ∧ (matchArray (a :: rest) uris).kind = .conflict) ∨
    (¬ a.Over uris ∧ a.paths.Disjoint uris ∧ matchArray (a :: rest) uris = matchArray rest uris) := by
  by_cases ho : a.Over uris
  · refine .inl ⟨ho, ?_⟩
    rw [matchArray]
    exact if_pos ho
  · right
    rw [matchArray_not_over ho, ← not_disjoint_iff_hit]
    cases hh : ((a.paths.filter (· ∈ uris)).insertionSort (· ≤ ·)).head? with
    | none => exact .inr ⟨ho, rfl, rfl⟩
    | some uri => exact .inl ⟨ho, by simp, rfl⟩

theorem matchArray_exact {arrays : List EngineArray} {uris : List String} {a : EngineArray}
    (h : matchArray arrays uris = .exact a) : a ∈ arrays ∧ a.Over uris := by
  induction arrays with
  | nil => simp [matchArray] at h
  | cons b rest ih =>
    rcases matchArray_cons b rest uris with ⟨ho, he⟩ | ⟨-, -, hk⟩ | ⟨-, -, he⟩
    · rw [he] at h
      cases h
      exact ⟨List.mem_cons_self, ho⟩
    · rw [h] at hk
      cases hk
    · rw [he] at h
      exact ⟨List.mem_cons_of_mem _ (ih h).1, (ih h).2⟩

theorem matchArray_none_iff {arrays : List EngineArray} {uris : List String} (hne : uris ≠ []) :
    (matchArray arrays uris).kind = .none ↔ ∀ a ∈ arrays, a.paths.Disjoint uris := by
  induction arrays with
  | nil => simp [matchArray, ArrayMatch.kind]
  | cons b rest ih =>
    rw [List.forall_mem_cons]
    rcases matchArray_cons b rest uris with ⟨ho, he⟩ | ⟨-, hd, hk⟩ | ⟨-, hd, he⟩
    · obtain ⟨u, hu⟩ := List.exists_mem_of_ne_nil _ hne
      rw [he]
      exact ⟨fun h => (nomatch h), fun h => absurd hu (h.1 (ho.2 hu))⟩
    · rw [hk]
      exact ⟨fun h => (nomatch h), fun h => absurd h.1 hd⟩
    · rw [he, ih]
      exact ⟨fun h => ⟨hd, h⟩, fun h => h.2⟩

/-- Among arrays without a drive in common, the one over the drives is found. -/
theorem matchArray_of_over {arrays : List EngineArray} (hap : Apart arrays) {uris : List String} (hne : uris ≠ [])
    {a : EngineArray} (ha : a ∈ arrays) (ho : a.Over uris) : matchArray arrays uris = .exact a := by
  obtain ⟨u, hu⟩ := List.exists_mem_of_ne_nil _ hne
  induction arrays with
  | nil => cases ha
  | cons b rest ih =>
    obtain ⟨hb, hrest⟩ := List.pairwise_cons.mp hap
    rcases List.mem_cons.mp ha with rfl | ha
    · rcases matchArray_cons a rest uris with ⟨-, he⟩ | ⟨hno, -⟩ | ⟨hno, -⟩
      · exact he
      · exact absurd ho hno
      · exact absurd ho hno
    · have hd : b.paths.Disjoint uris := fun v hv hv' => hb a ha hv (ho.2 hv')
      rcases matchArray_cons b rest uris with ⟨hob, -⟩ | ⟨-, hnd, -⟩ | ⟨-, -, he⟩
      · exact absurd hu (hd (hob.2 hu))
      · exact absurd hd hnd
      · rw [he]
        exact ih hrest ha

theorem matchArray_exact_iff {arrays : List EngineArray} (hap : Apart arrays) {uris : List String} (hne : uris ≠ []) :
    (matchArray arrays uris).kind = .exact ↔ ∃ a ∈ arrays, a.Over uris := by
  constructor
  · intro h
    cases hm : matchArray arrays uris with
    | none => rw [hm] at h; cases h
    | exact a => exact ⟨a, (matchArray_exact hm).1, (matchArray_exact hm).2⟩
    | conflict array uri => rw [hm] at h; cases h
  · rintro ⟨a, ha, ho⟩
    rw [matchArray_of_over hap hne ha ho, ArrayMatch.kind]

theorem MatchKind.eq_of_iff {k k' : MatchKind} (hn : k = .none ↔ k' = .none) (he : k = .exact ↔ k' = .exact) :
    k = k' := by
  cases k <;> cases k' <;> simp_all

/-- The order the head lists its arrays in does not change the kind of answer. -/
theorem kind_matchArray_perm {arrays arrays' : List EngineArray} (hp : arrays'.Perm arrays) (hap : Apart arrays)
    {uris : List String} (hne : uris ≠ []) : (matchArray arrays' uris).kind = (matchArray arrays uris).kind := by
  have hsymm : ∀ {a b : EngineArray}, List.Disjoint a.paths b.paths → List.Disjoint b.paths a.paths :=
    fun h _ hx hy => h hy hx
  have hap' : Apart arrays' := (hp.pairwise_iff hsymm).mpr hap
  refine MatchKind.eq_of_iff ?_ ?_
  · rw [matchArray_none_iff hne, matchArray_none_iff hne]
    exact ⟨fun h a ha => h a (hp.mem_iff.mpr ha), fun h a ha => h a (hp.mem_iff.mp ha)⟩
  · rw [matchArray_exact_iff hap' hne, matchArray_exact_iff hap hne]
    exact ⟨fun ⟨a, ha, ho⟩ => ⟨a, hp.mem_iff.mp ha, ho⟩, fun ⟨a, ha, ho⟩ => ⟨a, hp.mem_iff.mpr ha, ho⟩⟩

/-- The answer is safe exactly when no array over the drives has a member
without a path besides. -/
theorem matchArray_safe_iff (arrays : List EngineArray) (hap : Apart arrays) (uris : List String) (hne : uris ≠ []) :
    MatchSafe arrays uris ↔ ∀ a ∈ arrays, a.Over uris → ∀ m ∈ a.members, m.devicePath ≠ none := by
  constructor
  · intro h a ha ho m hm
    obtain ⟨-, hall, -⟩ := h.exact a (matchArray_of_over hap hne ha ho)
    obtain ⟨u, -, hu⟩ := hall m hm
    simp [hu]
  · intro h
    refine ⟨fun a hex => ?_, fun hno a ha m hm u hu hp => ?_, fun arrays' hp => kind_matchArray_perm hp hap hne⟩
    · obtain ⟨ha, ho⟩ := matchArray_exact hex
      refine ⟨ha, fun m hm => ?_, fun u hu => mem_paths.mp (ho.2 hu)⟩
      obtain ⟨u, hu⟩ := Option.ne_none_iff_exists'.mp (h a ha ho m hm)
      exact ⟨u, ho.1 (mem_paths.mpr ⟨m, hm, hu⟩), hu⟩
    · have hd := (matchArray_none_iff hne).mp (congrArg ArrayMatch.kind hno) a ha
      exact hd (mem_paths.mpr ⟨m, hm, hp⟩) hu

theorem matchArray_safe_pair :
    MatchSafe [{ id := some "r1", members := [{ uuid := none, devicePath := some "a" }] }] ["a"] :=
  (matchArray_safe_iff _ (List.pairwise_singleton _ _) _ (by simp)).mpr (by simp)

/-- An array over both legs' drives and a member that stands nowhere just now:
adopted, with its third member. -/
theorem matchArray_further_member :
    ¬ MatchSafe [{ id := some "r1", members := [{ uuid := some "m1", devicePath := some "a" },
      { uuid := some "m2", devicePath := some "b" }, { uuid := some "m3", devicePath := none }] }] ["a", "b"] := by
  intro h
  obtain ⟨-, hall, -⟩ := h.exact _ (matchArray_of_over (List.pairwise_singleton _ _) (by simp)
    List.mem_cons_self ⟨by simp [EngineArray.paths], by simp [EngineArray.paths]⟩)
  obtain ⟨u, -, hu⟩ := hall { uuid := some "m3", devicePath := none } (by simp)
  cases hu

/-! ## The member a leg is recorded as -/

/-- The place among the legs that a member is taken for: the leg that is its
drive, else the one of its own index. -/
def placeOf (uris : List String) (m : ArrayMember) (i : Nat) : Nat :=
  (m.devicePath.bind fun p => uris.idxOf? p).getD i

/-- A member with a uuid is taken for this place. -/
def Takes (uris : List String) (members : List ArrayMember) (k i : Nat) (u : String) : Prop :=
  ∃ m, members[i]? = some m ∧ m.uuid = some u ∧ placeOf uris m i = k

/-- The member recorded for a leg once the members are named. -/
def recordedAs (legs : List Leg) (members : List ArrayMember) (k : Nat) : Option String :=
  (nameMembers (legs.map (·.uri)) legs members)[k]?.bind (·.memberUuid)

theorem nameMembers_concat (uris : List String) (legs : List Leg) (members : List ArrayMember) (m : ArrayMember) :
    nameMembers uris legs (members ++ [m]) =
      match m.uuid with
      | none => nameMembers uris legs members
      | some uuid => (nameMembers uris legs members).modify (placeOf uris m members.length)
          fun l => { l with memberUuid := some uuid } := by
  unfold nameMembers
  rw [List.zipIdx_append, List.foldl_append]
  simp only [List.zipIdx_cons, List.zipIdx_nil, List.foldl_cons, List.foldl_nil, Nat.zero_add]
  rfl

theorem length_nameMembers (uris : List String) (legs : List Leg) (members : List ArrayMember) :
    (nameMembers uris legs members).length = legs.length := by
  induction members using List.reverseRecOn with
  | nil => rfl
  | append_singleton ms m ih =>
    rw [nameMembers_concat]
    cases m.uuid with
    | none => exact ih
    | some u =>
      dsimp only
      rw [List.length_modify, ih]

/-- What one member more changes: the leg at its place, if it has a uuid. -/
theorem nameMembers_concat_ne {uris : List String} {legs : List Leg} {members : List ArrayMember} {m : ArrayMember}
    {k : Nat} (h : ∀ u, m.uuid = some u → placeOf uris m members.length ≠ k) :
    (nameMembers uris legs (members ++ [m]))[k]? = (nameMembers uris legs members)[k]? := by
  rw [nameMembers_concat]
  cases hu : m.uuid with
  | none => rfl
  | some u =>
    dsimp only
    rw [List.getElem?_modify_ne _ _ (h u hu)]

/-- A leg that no member is taken for stays as it is. -/
theorem nameMembers_untaken {uris : List String} {legs : List Leg} {members : List ArrayMember} {k : Nat}
    (h : ∀ i u, ¬ Takes uris members k i u) : (nameMembers uris legs members)[k]? = legs[k]? := by
  induction members using List.reverseRecOn with
  | nil => rfl
  | append_singleton ms m ih =>
    have hm : ∀ u, m.uuid = some u → placeOf uris m ms.length ≠ k :=
      fun u hu hk => h ms.length u ⟨m, by simp, hu, hk⟩
    rw [nameMembers_concat_ne hm]
    refine ih fun i u ⟨m', hm', hu, hk⟩ => h i u ⟨m', ?_, hu, hk⟩
    rw [List.getElem?_append_left (List.getElem?_eq_some_iff.mp hm').1]
    exact hm'

/-- The last member that is taken for a leg is the one it is recorded as. -/
theorem nameMembers_last {uris : List String} {legs : List Leg} {members : List ArrayMember} {k i : Nat} {u : String}
    (ht : Takes uris members k i u) (hlast : ∀ i' u', i < i' → ¬ Takes uris members k i' u') {leg : Leg}
    (hl : legs[k]? = some leg) : (nameMembers uris legs members)[k]?.bind (·.memberUuid) = some u := by
  induction members using List.reverseRecOn with
  | nil =>
    obtain ⟨m, hm, -⟩ := ht
    simp at hm
  | append_singleton ms x ih =>
    obtain ⟨m, hm, hu, hk⟩ := ht
    by_cases hi : i = ms.length
    · subst hi
      obtain rfl : x = m := by simpa using hm
      have hlen : k < (nameMembers uris legs ms).length := by
        rw [length_nameMembers]
        exact (List.getElem?_eq_some_iff.mp hl).1
      rw [nameMembers_concat, hu]
      dsimp only
      rw [hk, List.getElem?_modify_eq, List.getElem?_eq_getElem hlen]
      rfl
    · have hlt : i < ms.length := by
        have := (List.getElem?_eq_some_iff.mp hm).1
        rw [List.length_append, List.length_singleton] at this
        omega
      have hx : ∀ u', x.uuid = some u' → placeOf uris x ms.length ≠ k :=
        fun u' hu' hk' => hlast ms.length u' hlt ⟨x, by simp, hu', hk'⟩
      rw [nameMembers_concat_ne hx]
      refine ih ⟨m, ?_, hu, hk⟩ fun i' u' hlt' ⟨m', hm', hu', hk'⟩ => hlast i' u' hlt' ⟨m', ?_, hu', hk'⟩
      · rwa [List.getElem?_append_left hlt] at hm
      · rw [List.getElem?_append_left (List.getElem?_eq_some_iff.mp hm').1]
        exact hm'

/-- Of the members taken for a place one is the last. -/
theorem Takes.exists_last {uris : List String} {members : List ArrayMember} {k i : Nat} {u : String}
    (h : Takes uris members k i u) :
    ∃ j v, i ≤ j ∧ Takes uris members k j v ∧ ∀ i' u', j < i' → ¬ Takes uris members k i' u' := by
  by_cases hmore : ∃ i' u', i < i' ∧ Takes uris members k i' u'
  · obtain ⟨i', u', hlt, h'⟩ := hmore
    have hb : i' < members.length := by
      obtain ⟨m, hm, -⟩ := h'
      exact (List.getElem?_eq_some_iff.mp hm).1
    obtain ⟨j, v, hle, hj⟩ := h'.exists_last
    exact ⟨j, v, by omega, hj⟩
  · exact ⟨i, u, le_rfl, h, fun i' u' hlt h' => hmore ⟨i', u', hlt, h'⟩⟩
termination_by members.length - i

theorem index_of_nodup_filterMap {α β : Type} {f : α → Option β} {l : List α} (h : (l.filterMap f).Nodup) {i j : Nat}
    {a b : α} {x : β} (hi : l[i]? = some a) (hj : l[j]? = some b) (ha : f a = some x) (hb : f b = some x) : i = j := by
  have hpair := List.pairwise_iff_getElem.mp (List.pairwise_filterMap.mp h)
  obtain ⟨hli, rfl⟩ := List.getElem?_eq_some_iff.mp hi
  obtain ⟨hlj, rfl⟩ := List.getElem?_eq_some_iff.mp hj
  rcases Nat.lt_trichotomy i j with hlt | he | hlt
  · exact absurd rfl (hpair i j hli hlj hlt x ha x hb)
  · exact he
  · exact absurd rfl (hpair j i hlj hli hlt x hb x ha)

/-- The members of an array, as an engine lists them. -/
structure Listed (members : List ArrayMember) : Prop where
  uuids : (members.filterMap (·.uuid)).Nodup
  paths : (members.filterMap (·.devicePath)).Nodup

/-- Each leg is recorded as the member that is its drive, and no two legs as
one member. -/
structure Assigned (legs : List Leg) (members : List ArrayMember) : Prop where
  own : ∀ (k : Nat) (leg : Leg), legs[k]? = some leg → ∀ m ∈ members, ∀ u, m.uuid = some u →
    m.devicePath = some leg.uri → recordedAs legs members k = some u
  apart : ∀ j k u, j ≠ k → recordedAs legs members j = some u → recordedAs legs members k ≠ some u

/-- The member that is a leg's drive. -/
def ownMember (members : List ArrayMember) (leg : Leg) : Option String :=
  members.findSome? fun m => if m.devicePath = some leg.uri then m.uuid else none

/-- The member of a leg's index, if it is no leg's drive. -/
def orderMember (legs : List Leg) (members : List ArrayMember) (k : Nat) : Option String :=
  members[k]?.bind fun m => if m.devicePath.all (· ∉ legs.map (·.uri)) then m.uuid else none

def memberFor (legs : List Leg) (members : List ArrayMember) (k : Nat) (leg : Leg) : Option String :=
  (ownMember members leg).or (orderMember legs members k)

/-- When the members name the legs right. -/
structure Assignable (legs : List Leg) (members : List ArrayMember) : Prop where
  /-- No two legs are one drive that is a member. -/
  distinct : ∀ (j k : Nat) (l l' : Leg), j ≠ k → legs[j]? = some l → legs[k]? = some l' → l.uri = l'.uri →
    ownMember members l = none
  /-- No member that is no leg's drive stands at the place of a leg after the
  leg's own. -/
  last : ∀ (k : Nat) (leg : Leg), legs[k]? = some leg → ∀ i < k, ∀ m : ArrayMember, members[i]? = some m →
    m.uuid.isSome → m.devicePath = some leg.uri → orderMember legs members k = none
  /-- A leg without a member is not recorded as one that another leg is. -/
  kept : ∀ (j k : Nat) (l l' : Leg) u, j ≠ k → legs[j]? = some l → legs[k]? = some l' →
    memberFor legs members j l = none → l.memberUuid = some u → (memberFor legs members k l').or l'.memberUuid ≠ some u

theorem Listed.eq_of_path {members : List ArrayMember} (h : Listed members) {i j : Nat} {m m' : ArrayMember}
    {p : String} (hi : members[i]? = some m) (hj : members[j]? = some m') (hm : m.devicePath = some p)
    (hm' : m'.devicePath = some p) : i = j :=
  index_of_nodup_filterMap h.paths hi hj hm hm'

theorem Listed.eq_of_uuid {members : List ArrayMember} (h : Listed members) {i j : Nat} {m m' : ArrayMember}
    {u : String} (hi : members[i]? = some m) (hj : members[j]? = some m') (hm : m.uuid = some u)
    (hm' : m'.uuid = some u) : i = j :=
  index_of_nodup_filterMap h.uuids hi hj hm hm'

theorem ownMember_some {members : List ArrayMember} {leg : Leg} {u : String} (h : ownMember members leg = some u) :
    ∃ (i : Nat) (m : ArrayMember), members[i]? = some m ∧ m.uuid = some u ∧ m.devicePath = some leg.uri := by
  obtain ⟨m, hm, hif⟩ := List.exists_of_findSome?_eq_some h
  obtain ⟨i, hi⟩ := List.mem_iff_getElem?.mp hm
  split at hif
  · rename_i hp
    exact ⟨i, m, hi, hif, hp⟩
  · cases hif

theorem ownMember_of {members : List ArrayMember} (hL : Listed members) {leg : Leg} {i : Nat} {m : ArrayMember}
    {u : String} (hi : members[i]? = some m) (hu : m.uuid = some u) (hp : m.devicePath = some leg.uri) :
    ownMember members leg = some u := by
  cases ho : ownMember members leg with
  | none =>
    have hno := List.findSome?_eq_none_iff.mp ho m (List.mem_iff_getElem?.mpr ⟨i, hi⟩)
    rw [if_pos hp, hu] at hno
    cases hno
  | some u' =>
    obtain ⟨j, m', hj, hu', hp'⟩ := ownMember_some ho
    obtain rfl := hL.eq_of_path hi hj hp hp'
    rw [hi] at hj
    cases hj
    exact hu'.symm.trans hu

theorem orderMember_eq_some {legs : List Leg} {members : List ArrayMember} {k : Nat} {u : String} :
    orderMember legs members k = some u ↔
      ∃ m, members[k]? = some m ∧ m.uuid = some u ∧ ∀ p, m.devicePath = some p → p ∉ legs.map (·.uri) := by
  unfold orderMember
  rw [Option.bind_eq_some_iff]
  constructor
  · rintro ⟨m, hm, hif⟩
    split at hif
    · rename_i hall
      refine ⟨m, hm, hif, fun p hp => ?_⟩
      simpa [hp] using hall
    · cases hif
  · rintro ⟨m, hm, hu, hno⟩
    refine ⟨m, hm, ?_⟩
    rw [if_pos ?_, hu]
    cases hp : m.devicePath with
    | none => rfl
    | some p => simpa using hno p hp

/-- A member is taken for a leg that is its drive, or for the one of its index
when it is no leg's drive. -/
theorem takes_cases {legs : List Leg} {members : List ArrayMember} {k i : Nat} {u : String}
    (h : Takes (legs.map (·.uri)) members k i u) :
    (∃ (m : ArrayMember) (leg : Leg), members[i]? = some m ∧ m.uuid = some u ∧ legs[k]? = some leg ∧
        m.devicePath = some leg.uri) ∨
      (i = k ∧ orderMember legs members k = some u) := by
  obtain ⟨m, hm, hu, hk⟩ := h
  unfold placeOf at hk
  cases hb : m.devicePath.bind fun p => (legs.map (·.uri)).idxOf? p with
  | some j =>
    rw [hb] at hk
    obtain rfl : j = k := hk
    obtain ⟨p, hp, hj⟩ := Option.bind_eq_some_iff.mp hb
    obtain ⟨hlt, he, -⟩ := List.idxOf?_eq_some_iff.mp hj
    rw [List.length_map] at hlt
    rw [List.getElem_map] at he
    exact .inl ⟨m, legs[j], hm, hu, List.getElem?_eq_getElem hlt, by rw [hp, he]⟩
  | none =>
    rw [hb] at hk
    obtain rfl : i = k := hk
    refine .inr ⟨rfl, orderMember_eq_some.mpr ⟨m, hm, hu, fun p hp => ?_⟩⟩
    rw [hp, Option.bind_some] at hb
    exact List.idxOf?_eq_none_iff.mp hb

theorem takes_of_orderMember {legs : List Leg} {members : List ArrayMember} {k : Nat} {u : String}
    (h : orderMember legs members k = some u) : Takes (legs.map (·.uri)) members k k u := by
  obtain ⟨m, hm, hu, hno⟩ := orderMember_eq_some.mp h
  refine ⟨m, hm, hu, ?_⟩
  unfold placeOf
  have hb : (m.devicePath.bind fun p => (legs.map (·.uri)).idxOf? p) = none := by
    cases hp : m.devicePath with
    | none => rfl
    | some p => exact List.idxOf?_eq_none_iff.mpr (hno p hp)
  rw [hb]
  rfl

/-- A leg's own member is taken for it, unless another leg is the same drive. -/
theorem takes_of_path {legs : List Leg} {members : List ArrayMember} {k i : Nat} {u : String} {leg : Leg}
    {m : ArrayMember} (hk : legs[k]? = some leg) (hm : members[i]? = some m) (hu : m.uuid = some u)
    (hp : m.devicePath = some leg.uri) (hone : ∀ (j : Nat) (l : Leg), legs[j]? = some l → l.uri = leg.uri → j = k) :
    Takes (legs.map (·.uri)) members k i u := by
  refine ⟨m, hm, hu, ?_⟩
  have hmem : leg.uri ∈ legs.map (·.uri) := List.mem_map.mpr ⟨leg, List.mem_iff_getElem?.mpr ⟨k, hk⟩, rfl⟩
  obtain ⟨j, hj⟩ := Option.isSome_iff_exists.mp (List.isSome_idxOf?.mpr hmem)
  obtain ⟨hlt, he, -⟩ := List.idxOf?_eq_some_iff.mp hj
  rw [List.length_map] at hlt
  rw [List.getElem_map] at he
  obtain rfl := hone j _ (List.getElem?_eq_getElem hlt) he
  unfold placeOf
  rw [hp, Option.bind_some, hj]
  rfl

/-- Each leg ends as the member meant for it, else as it was. -/
theorem recordedAs_eq {legs : List Leg} {members : List ArrayMember} (hL : Listed members) {k : Nat} {leg : Leg}
    (hk : legs[k]? = some leg)
    (hone : ownMember members leg ≠ none → ∀ (j : Nat) (l : Leg), legs[j]? = some l → l.uri = leg.uri → j = k)
    (hlast : ∀ i < k, ∀ m : ArrayMember, members[i]? = some m → m.uuid.isSome → m.devicePath = some leg.uri →
      orderMember legs members k = none) :
    recordedAs legs members k = (memberFor legs members k leg).or leg.memberUuid := by
  unfold recordedAs memberFor
  cases ho : ownMember members leg with
  | some u =>
    obtain ⟨i, m, hi, hu, hp⟩ := ownMember_some ho
    have ht := takes_of_path hk hi hu hp (hone (by simp [ho]))
    refine nameMembers_last ht (fun i' u' hlt h' => ?_) hk
    rcases takes_cases h' with ⟨m', leg', hi', -, hk', hp'⟩ | ⟨rfl, ho'⟩
    · rw [hk] at hk'
      cases hk'
      have := hL.eq_of_path hi hi' hp hp'
      omega
    · rw [hlast i hlt m hi (by simp [hu]) hp] at ho'
      cases ho'
  | none =>
    have hno : ∀ {i : Nat} {u : String} {m : ArrayMember} {leg' : Leg}, members[i]? = some m → m.uuid = some u →
        legs[k]? = some leg' → m.devicePath ≠ some leg'.uri := by
      intro i u m leg' hi hu hk' hp
      rw [hk] at hk'
      cases hk'
      rw [ownMember_of hL hi hu hp] at ho
      cases ho
    cases hord : orderMember legs members k with
    | some u =>
      refine nameMembers_last (takes_of_orderMember hord) (fun i' u' hlt h' => ?_) hk
      rcases takes_cases h' with ⟨m', leg', hi', hu', hk', hp'⟩ | ⟨rfl, -⟩
      · exact hno hi' hu' hk' hp'
      · omega
    | none =>
      rw [nameMembers_untaken, hk]
      · rfl
      · intro i u h'
        rcases takes_cases h' with ⟨m', leg', hi', hu', hk', hp'⟩ | ⟨-, ho'⟩
        · exact hno hi' hu' hk' hp'
        · rw [hord] at ho'
          cases ho'

theorem recordedAs_of_assignable {legs : List Leg} {members : List ArrayMember} (hL : Listed members)
    (hA : Assignable legs members) {k : Nat} {leg : Leg} (hk : legs[k]? = some leg) :
    recordedAs legs members k = (memberFor legs members k leg).or leg.memberUuid := by
  refine recordedAs_eq hL hk (fun hown j l hj he => ?_) (hA.last k leg hk)
  by_contra hne
  exact hown (hA.distinct k j leg l (Ne.symm hne) hk hj he.symm)

/-- Two legs are not meant to be one member. -/
theorem memberFor_apart {legs : List Leg} {members : List ArrayMember} (hL : Listed members)
    (hA : Assignable legs members) {j k : Nat} {l l' : Leg} (hne : j ≠ k) (hj : legs[j]? = some l)
    (hk : legs[k]? = some l') {u : String} (h : memberFor legs members j l = some u) :
    memberFor legs members k l' ≠ some u := by
  intro h'
  have hin : ∀ {i : Nat} {x : Leg}, legs[i]? = some x → x.uri ∈ legs.map (·.uri) := fun hx =>
    List.mem_map.mpr ⟨_, List.mem_iff_getElem?.mpr ⟨_, hx⟩, rfl⟩
  unfold memberFor at h h'
  rcases Option.or_eq_some_iff.mp h with ho | ⟨-, ho⟩ <;> rcases Option.or_eq_some_iff.mp h' with ho' | ⟨-, ho'⟩
  · obtain ⟨i, m, hi, hu, hp⟩ := ownMember_some ho
    obtain ⟨i', m', hi', hu', hp'⟩ := ownMember_some ho'
    obtain rfl := hL.eq_of_uuid hi hi' hu hu'
    rw [hi] at hi'
    cases hi'
    have hsame : l.uri = l'.uri := Option.some.inj (hp.symm.trans hp')
    rw [hA.distinct j k l l' hne hj hk hsame] at ho
    cases ho
  · obtain ⟨i, m, hi, hu, hp⟩ := ownMember_some ho
    obtain ⟨m', hi', hu', hno⟩ := orderMember_eq_some.mp ho'
    obtain rfl := hL.eq_of_uuid hi hi' hu hu'
    rw [hi] at hi'
    cases hi'
    exact hno _ hp (hin hj)
  · obtain ⟨i, m, hi, hu, hp⟩ := ownMember_some ho'
    obtain ⟨m', hi', hu', hno⟩ := orderMember_eq_some.mp ho
    obtain rfl := hL.eq_of_uuid hi hi' hu hu'
    rw [hi] at hi'
    cases hi'
    exact hno _ hp (hin hk)
  · obtain ⟨m, hi, hu, -⟩ := orderMember_eq_some.mp ho
    obtain ⟨m', hi', hu', -⟩ := orderMember_eq_some.mp ho'
    exact hne (hL.eq_of_uuid hi hi' hu hu')

theorem exists_of_recordedAs {legs : List Leg} {members : List ArrayMember} {k : Nat} {u : String}
    (h : recordedAs legs members k = some u) : ∃ leg, legs[k]? = some leg := by
  unfold recordedAs at h
  obtain ⟨l, hl, -⟩ := Option.bind_eq_some_iff.mp h
  have hlt := (List.getElem?_eq_some_iff.mp hl).1
  rw [length_nameMembers] at hlt
  exact ⟨legs[k], List.getElem?_eq_getElem hlt⟩

/-- The legs are recorded right exactly when the members name them right. -/
theorem nameMembers_assigned_iff (legs : List Leg) (members : List ArrayMember) (hL : Listed members) :
    Assigned legs members ↔ Assignable legs members := by
  constructor
  · intro h
    have hdistinct : ∀ (j k : Nat) (l l' : Leg), j ≠ k → legs[j]? = some l → legs[k]? = some l' → l.uri = l'.uri →
        ownMember members l = none := by
      intro j k l l' hne hj hk he
      cases ho : ownMember members l with
      | none => rfl
      | some u =>
        obtain ⟨i, m, hi, hu, hp⟩ := ownMember_some ho
        have hm : m ∈ members := List.mem_iff_getElem?.mpr ⟨i, hi⟩
        exact absurd (h.own k l' hk m hm u hu (by rw [hp, he])) (h.apart j k u hne (h.own j l hj m hm u hu hp))
    have hone : ∀ {k : Nat} {leg : Leg}, legs[k]? = some leg → ownMember members leg ≠ none →
        ∀ (j : Nat) (l : Leg), legs[j]? = some l → l.uri = leg.uri → j = k := by
      intro k leg hk hown j l hj he
      by_contra hne
      exact hown (hdistinct k j leg l (Ne.symm hne) hk hj he.symm)
    have hlast : ∀ (k : Nat) (leg : Leg), legs[k]? = some leg → ∀ i < k, ∀ m : ArrayMember, members[i]? = some m →
        m.uuid.isSome → m.devicePath = some leg.uri → orderMember legs members k = none := by
      intro k leg hk i hlt m hi hsome hp
      obtain ⟨u, hu⟩ := Option.isSome_iff_exists.mp hsome
      have hown := h.own k leg hk m (List.mem_iff_getElem?.mpr ⟨i, hi⟩) u hu hp
      cases hord : orderMember legs members k with
      | none => rfl
      | some v =>
        obtain ⟨j, w, hle, ht, hend⟩ := (takes_of_orderMember hord).exists_last
        have hrec : recordedAs legs members k = some w := nameMembers_last ht hend hk
        obtain ⟨m', hj, hw, -⟩ := ht
        rw [hown] at hrec
        cases hrec
        have := hL.eq_of_uuid hi hj hu hw
        omega
    refine ⟨hdistinct, hlast, fun j k l l' u hne hj hk hno hl he => ?_⟩
    have hrj := recordedAs_eq hL hj (hone hj) (hlast j l hj)
    have hrk := recordedAs_eq hL hk (hone hk) (hlast k l' hk)
    rw [hno, Option.none_or, hl] at hrj
    exact h.apart j k u hne hrj (hrk.trans he)
  · intro hA
    refine ⟨fun k leg hk m hm u hu hp => ?_, fun j k u hne hj hk => ?_⟩
    · obtain ⟨i, hi⟩ := List.mem_iff_getElem?.mp hm
      rw [recordedAs_of_assignable hL hA hk, memberFor, ownMember_of hL hi hu hp]
      rfl
    · obtain ⟨l, hl⟩ := exists_of_recordedAs hj
      obtain ⟨l', hl'⟩ := exists_of_recordedAs hk
      rw [recordedAs_of_assignable hL hA hl] at hj
      rw [recordedAs_of_assignable hL hA hl'] at hk
      rcases Option.or_eq_some_iff.mp hj with hmj | ⟨hmj, hoj⟩
      · rcases Option.or_eq_some_iff.mp hk with hmk | ⟨hmk, hok⟩
        · exact memberFor_apart hL hA hne hl hl' hmj hmk
        · exact hA.kept k j l' l u (Ne.symm hne) hl' hl hmk hok (by rw [hmj]; rfl)
      · exact hA.kept j k l l' u hne hl hl' hmj hoj hk

/-- A leg of a fresh pair. -/
def freshLeg (node : String) : Leg :=
  { node := node, volumeId := some "v1", state := .created
    «export» := some { nqn := "nqn", traddr := node, trsvcid := 4420, nsid := 1 } }

/-- Members listed the other way round name their legs by path. -/
theorem nameMembers_assigned_swapped :
    Assigned [freshLeg "n1", freshLeg "n2"] [{ uuid := some "m2", devicePath := some (freshLeg "n2").uri },
      { uuid := some "m1", devicePath := some (freshLeg "n1").uri }] := by
  have hne : (freshLeg "n1").uri ≠ (freshLeg "n2").uri := by decide +kernel
  refine (nameMembers_assigned_iff _ _ ⟨by simp, by simp [hne.symm]⟩).mpr ⟨?_, ?_, ?_⟩
  · rintro (_ | _ | j) (_ | _ | k) l l' hjk hl hl' he <;> simp at hjk hl hl'
    · exact absurd (hl ▸ hl' ▸ he) hne
    · exact absurd (hl ▸ hl' ▸ he) hne.symm
  · rintro (_ | _ | k) leg hk i hi m - - - <;> simp at hi hk
    simp [orderMember]
  · rintro (_ | _ | j) (_ | _ | k) l l' u hjk hl hl' - hu - <;> simp at hjk hl hl'
    · exact absurd hu (by simp [← hl, freshLeg])
    · exact absurd hu (by simp [← hl, freshLeg])

/-- A member without a path is taken for the leg of its index, which has its
own member already. -/
theorem nameMembers_overwritten :
    ¬ Assigned [freshLeg "n1", freshLeg "n2"]
      [{ uuid := some "m2", devicePath := some (freshLeg "n2").uri }, { uuid := some "m1", devicePath := none }] := by
  intro h
  have hown := h.own 1 (freshLeg "n2") (by simp) _ List.mem_cons_self "m2" rfl rfl
  have hwas : recordedAs [freshLeg "n1", freshLeg "n2"]
      [{ uuid := some "m2", devicePath := some (freshLeg "n2").uri }, { uuid := some "m1", devicePath := none }] 1 =
      some "m1" := by decide +kernel
  rw [hwas] at hown
  exact absurd hown (by decide)

end Orchestrate

end StormStorage
