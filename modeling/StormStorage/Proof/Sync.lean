import Mathlib.Data.String.Basic
import StormStorage.Head.Sync

/-!
# What a superblock proves

When a promote may take a copy on the word of superblocks.

* `agreedState_active`: superblocks agree that a member is active when each
  records it so;
* `memberFrom_active`: a member reads active from them when the rules hold
  (`Proven`);
* `replicas_inSync_iff`: a copy is then in sync, and only then.
-/

namespace StormStorage.Head

open Orchestrate

/-! ## The rules -/

/-- The superblock records the member active. -/
def RecordsActive (sb : LegSuperblock) (member : String) : Prop :=
  ∃ r, sb.slots.find? (·.memberUuid = member) = some r ∧ r.state = "active"

/-- The reading has the member active. -/
def HasActive (live : ArrayReading) (member : String) : Prop :=
  ∃ m, live.members.find? (fun m => m.uuid.toLower = member.toLower) = some m ∧ m.state = "active"

/-- What a superblock among those read must show for its member to count as in
sync, beside the last live reading of the head. -/
structure Proven (head arrayId : String) (last : Option ArrayReading) (sbs : List LegSuperblock) (sb : LegSuperblock) :
    Prop where
  ours : sb.arrayUuid.toLower = arrayId.toLower
  newest : ∀ s ∈ sbs, s.arrayUuid.toLower = arrayId.toLower → s.events ≤ sb.events
  agreed : ∀ s ∈ sbs, s.arrayUuid.toLower = arrayId.toLower → s.events = sb.events → RecordsActive s sb.memberUuid
  notOlder : ∀ live, liveReading head arrayId last = some live → ∀ f, live.events = some f → f ≤ sb.events
  seen : ∀ live, liveReading head arrayId last = some live →
    (∃ f, live.events = some f ∧ f < sb.events) ∨ HasActive live sb.memberUuid

/-! ## What superblocks agree on -/

theorem agree_active {out : Option (String × Nat)} {r : SlotRecord} :
    (agree out r).1 = "active" ↔ (∀ o, out = some o → o.1 = "active") ∧ r.state = "active" := by
  cases out with
  | none => simp [agree]
  | some o =>
    obtain ⟨st, rb⟩ := o
    simp only [agree, Option.some.injEq, forall_eq']
    by_cases hs : st = "active" <;> by_cases hr : r.state = "active"
    · simp [hs, hr]
    · have hlt : stateRank r.state < stateRank st := by
        rw [hs, stateRank, if_neg hr]
        split <;> decide
      rw [if_pos hlt]
      simp [hr]
    · have hge : ¬ stateRank r.state < stateRank st := by
        rw [hr, stateRank, if_pos rfl, stateRank]
        split <;> [omega; split <;> omega]
      have hne : r.state ≠ st := fun he => hs (he ▸ hr)
      rw [if_neg hge, if_neg hne]
      simp [hs]
    · simp only [hs, hr, and_false, iff_false]
      split
      · exact hr
      · split
        · exact hs
        · exact hs

/-- Superblocks agree that a member is active when every one records it so. -/
theorem agreedState_active {member : String} (out : Option (String × Nat)) (sbs : List LegSuperblock) :
    (agreedState member out sbs).1 = "active" ↔
      (∀ o, out = some o → o.1 = "active") ∧ (out = none → sbs ≠ []) ∧ ∀ s ∈ sbs, RecordsActive s member := by
  induction sbs generalizing out with
  | nil => cases out <;> simp [agreedState]
  | cons sb rest ih =>
    rw [agreedState]
    cases hf : sb.slots.find? (·.memberUuid = member) with
    | none =>
      have hno : ¬ RecordsActive sb member := by
        rintro ⟨r, hr, -⟩
        rw [hf] at hr
        cases hr
      simp [hno]
    | some r =>
      have hrec : RecordsActive sb member ↔ r.state = "active" := by
        constructor
        · rintro ⟨r', hr', hs⟩
          rw [hf, Option.some.injEq] at hr'
          exact hr' ▸ hs
        · exact fun hs => ⟨r, hf, hs⟩
      have hone : (∀ o, some (agree out r) = some o → o.1 = "active") ↔
          (∀ o, out = some o → o.1 = "active") ∧ r.state = "active" := by
        rw [← agree_active]
        exact ⟨fun h => h _ rfl, fun h o ho => Option.some.inj ho ▸ h⟩
      dsimp only
      rw [ih, hone, ← hrec]
      simp [and_assoc]

/-! ## A member's state -/

theorem agreeWith_active {live : ArrayReading} {member : String} {own : String × Nat} :
    (agreeWith live member own).1 = "active" ↔ own.1 = "active" ∧ HasActive live member := by
  rw [agreeWith, HasActive]
  cases live.members.find? fun m => m.uuid.toLower = member.toLower with
  | none => simp
  | some m =>
    by_cases hm : m.state = "active"
    · simp [hm]
    · by_cases ho : own.1 = "active"
      · simp [hm, ho]
      · simp only [hm, if_false, ho, false_or, false_and, iff_false]
        split
        · exact hm
        · exact ho

/-- A member reads active when its superblock is of the newest count, not older
than the live reading, and everything that must agrees. -/
theorem memberFrom_active {last : Option ArrayReading} {top : Nat} {newest : List LegSuperblock} {sb : LegSuperblock} :
    (memberFrom last top newest sb).state = "active" ↔
      top ≤ sb.events ∧ (∀ l, last = some l → ∀ f, l.events = some f → f ≤ sb.events) ∧
        (newest ≠ [] ∧ ∀ s ∈ newest, RecordsActive s sb.memberUuid) ∧
        ∀ l, last = some l → (∃ f, l.events = some f ∧ f < sb.events) ∨ HasActive l sb.memberUuid := by
  have hown : (ownState (last.bind (·.events)) top newest sb).1 = "active" ↔
      top ≤ sb.events ∧ (∀ l, last = some l → ∀ f, l.events = some f → f ≤ sb.events) ∧
        newest ≠ [] ∧ ∀ s ∈ newest, RecordsActive s sb.memberUuid := by
    rw [ownState]
    have hfloor : (last.bind (·.events)).any (sb.events < ·) = false ↔
        ∀ l, last = some l → ∀ f, l.events = some f → f ≤ sb.events := by
      cases last with
      | none => simp
      | some l => cases hl : l.events <;> simp [hl]
    split
    · rename_i h
      rw [← hfloor]
      rcases h with h | h
      · simp [h]
      · simp [h]
    · rename_i h
      rw [not_or, not_lt, Bool.not_eq_true] at h
      rw [agreedState_active, ← hfloor]
      simp [h.1, h.2]
  have hnewer : ∀ l, last = some l → ((last.bind (·.events)).any (· < sb.events) = true ↔
      ∃ f, l.events = some f ∧ f < sb.events) := by
    rintro l rfl
    cases hl : l.events <;> simp [hl]
  rw [memberFrom]
  dsimp only
  cases last with
  | none => simpa using hown
  | some l =>
    by_cases hn : ((some l).bind (·.events)).any (· < sb.events) = true
    · rw [Option.filter_some, if_neg (by simpa using hn)]
      have hl : ∀ l', some l = some l' → (∃ f, l'.events = some f ∧ f < sb.events) ∨ HasActive l' sb.memberUuid :=
        fun l' he => .inl ((hnewer l' he).mp hn)
      refine hown.trans ⟨fun ⟨h1, h2, h3⟩ => ⟨h1, h2, h3, hl⟩, fun ⟨h1, h2, h3, _⟩ => ⟨h1, h2, h3⟩⟩
    · rw [Option.filter_some, if_pos (by simpa using hn)]
      have hl : HasActive l sb.memberUuid ↔
          ∀ l', some l = some l' → (∃ f, l'.events = some f ∧ f < sb.events) ∨ HasActive l' sb.memberUuid := by
        constructor
        · intro h l' he
          exact .inr (Option.some.inj he ▸ h)
        · exact fun h => (h l rfl).resolve_left fun hf => hn ((hnewer l rfl).mpr hf)
      show (agreeWith l sb.memberUuid (ownState ((some l).bind (·.events)) top newest sb)).1 = "active" ↔ _
      rw [agreeWith_active, hown, hl, and_assoc, and_assoc, and_assoc]

/-! ## A leg's member -/

/-- The superblock is of the leg's member. -/
def IsMember (leg : Leg) (sb : LegSuperblock) : Prop := ∃ u, leg.memberUuid = some u ∧ u.toLower = sb.memberUuid.toLower

/-- A letter made lower stays as it is. -/
theorem lowerChar_lowerChar (c : Char) : c.toLower.toLower = c.toLower := by
  have hsame : ∀ d : Char, ¬ (d.val ≥ 'A'.val ∧ d.val ≤ 'Z'.val) → d.toLower = d := by
    intro d hd
    unfold Char.toLower
    rw [dif_neg hd]
  by_cases h : c.val ≥ 'A'.val ∧ c.val ≤ 'Z'.val
  · have hl : c.toLower.val = c.val + ('a'.val - 'A'.val) := by
      unfold Char.toLower
      rw [dif_pos h]
    refine hsame _ fun ⟨_, hle⟩ => ?_
    have hge : 65 ≤ c.val.toNat := h.1
    have hz : c.val.toNat ≤ 90 := h.2
    have hsum : (c.val + 32).toNat ≤ 90 := hl ▸ hle
    rw [UInt32.toNat_add, show (32 : UInt32).toNat = 32 from rfl, Nat.mod_eq_of_lt (by omega)] at hsum
    omega
  · rw [hsame c h, hsame c h]

theorem toLower_toLower (s : String) : s.toLower.toLower = s.toLower := by
  show (s.map Char.toLower).map Char.toLower = s.map Char.toLower
  rw [String.map_map]
  congr 1
  exact funext lowerChar_lowerChar

theorem lower_parseSuperblock {b : SuperblockBody} {sb : LegSuperblock} (h : parseSuperblock b = some sb) :
    sb.memberUuid.toLower = sb.memberUuid := by
  rw [parseSuperblock] at h
  simp only [Option.bind_eq_bind, Option.bind_eq_some_iff, Option.pure_def, Option.some.injEq] at h
  obtain ⟨a, -, m, -, e, -, rfl⟩ := h
  exact toLower_toLower m

theorem driveUri_ne (a : AttachedLeg) : a.driveUri ≠ "" := by
  intro h
  unfold AttachedLeg.driveUri at h
  cases hn : a.hostNqn <;> rw [hn] at h <;> simp [toString] at h

theorem memberSync_inSync {m : MemberReading} {n : Nat} : memberSync m n = .inSync ↔ m.state = "active" := by
  unfold memberSync
  split
  · rename_i h
    exact ⟨fun _ => h, fun _ => rfl⟩
  · rename_i h
    split <;> exact ⟨fun he => (nomatch he), fun he => absurd he h⟩

/-- Among superblocks of different members, the member found for a leg is the
one its superblock made. -/
theorem memberOf_iff {leg : Leg} {r : ArrayReading} {ours : List LegSuperblock} {f : LegSuperblock → MemberReading}
    (hr : r.members = ours.map f) (hf : ∀ sb, (f sb).uuid = sb.memberUuid ∧ (f sb).devicePath = "")
    (hl : ∀ sb ∈ ours, sb.memberUuid.toLower = sb.memberUuid) (hd : (ours.map (·.memberUuid)).Nodup)
    {m : MemberReading} : memberOf leg r = some m ↔ ∃ sb ∈ ours, IsMember leg sb ∧ m = f sb := by
  let p : LegSuperblock → Bool := fun sb => decide ((leg.memberUuid.any fun u => u.toLower = (f sb).uuid.toLower) ∨
    leg.export.any (·.driveUri = (f sb).devicePath))
  have hp : ∀ sb, p sb = true ↔ IsMember leg sb := by
    intro sb
    have hno : leg.export.any (·.driveUri = (f sb).devicePath) = false := by
      rw [(hf sb).2]
      cases leg.export with
      | none => rfl
      | some a => simpa using driveUri_ne a
    show decide _ = true ↔ _
    rw [decide_eq_true_eq, hno, (hf sb).1, IsMember]
    cases leg.memberUuid <;> simp
  have hfind : memberOf leg r = (ours.find? p).map f := by
    rw [memberOf, hr, List.find?_map]
    rfl
  rw [hfind, Option.map_eq_some_iff]
  constructor
  · rintro ⟨sb, hsb, rfl⟩
    exact ⟨sb, List.mem_of_find?_eq_some hsb, (hp sb).mp (List.find?_some hsb), rfl⟩
  · rintro ⟨sb, hsb, hm, rfl⟩
    obtain ⟨sb', hsb'⟩ := Option.isSome_iff_exists.mp (List.find?_isSome.mpr ⟨sb, hsb, (hp sb).mpr hm⟩)
    have hm' : IsMember leg sb' := (hp sb').mp (List.find?_some hsb')
    have hin' := List.mem_of_find?_eq_some hsb'
    obtain ⟨u, hu, he⟩ := hm
    obtain ⟨u', hu', he'⟩ := hm'
    obtain rfl : u = u' := Option.some.inj (hu.symm.trans hu')
    have hsame : sb'.memberUuid = sb.memberUuid := by rw [← hl sb' hin', ← he', he, hl sb hsb]
    obtain rfl : sb' = sb := List.inj_on_of_nodup_map hd hin' hsb hsame
    exact ⟨sb', hsb', rfl⟩

theorem syncOf_inSync {vol : DistVolume} (hup : vol.assembly = .assembled ∨ vol.assembly = .degraded) {leg : Leg}
    (hc : leg.state = .created) {reading : Option ArrayReading} :
    syncOf vol reading leg = .inSync ↔ ∃ r m, reading = some r ∧ memberOf leg r = some m ∧ m.state = "active" := by
  have hsome : syncOf vol reading leg =
      (reading.bind fun r => (memberOf leg r).map fun m => memberSync m r.memberDataBytes).getD .detached := by
    rw [syncOf, if_neg (not_not.mpr hc)]
    rcases hup with h | h <;> rw [h]
  rw [hsome]
  cases reading with
  | none => simp
  | some r =>
    cases hm : memberOf leg r with
    | none => simp [hm]
    | some m => simp [hm, memberSync_inSync]

/-- The member that a superblock makes is active when it proves it. -/
theorem memberFrom_proven {head arrayId : String} {last : Option ArrayReading} {sbs ours : List LegSuperblock}
    (hours : ∀ s, s ∈ ours ↔ s ∈ sbs ∧ s.arrayUuid.toLower = arrayId.toLower) {top : Nat}
    (htop : (ours.map (·.events)).max? = some top) {sb : LegSuperblock} (hsb : sb ∈ ours) :
    (memberFrom (liveReading head arrayId last) top (ours.filter (·.events = top)) sb).state = "active" ↔
      Proven head arrayId last sbs sb := by
  obtain ⟨hin, hmax⟩ := List.max?_eq_some_iff.mp htop
  obtain ⟨best, hbest, rfl⟩ := List.mem_map.mp hin
  have hle : ∀ s ∈ ours, s.events ≤ best.events := fun s hs => hmax _ (List.mem_map.mpr ⟨s, hs, rfl⟩)
  have hne : ours.filter (·.events = best.events) ≠ [] :=
    List.ne_nil_of_mem (List.mem_filter.mpr ⟨hbest, by simp⟩)
  rw [memberFrom_active]
  constructor
  · rintro ⟨htop, hfloor, ⟨-, hagree⟩, hseen⟩
    refine ⟨((hours sb).mp hsb).2, fun s hs ho => (hle s ((hours s).mpr ⟨hs, ho⟩)).trans htop, fun s hs ho he => ?_,
      hfloor, hseen⟩
    have hs' := (hours s).mpr ⟨hs, ho⟩
    exact hagree s (List.mem_filter.mpr ⟨hs', by simpa using he.trans (le_antisymm (hle sb hsb) htop)⟩)
  · intro h
    have hb := (hours best).mp hbest
    have he : sb.events = best.events := le_antisymm (hle sb hsb) (h.newest best hb.1 hb.2)
    refine ⟨he.ge, h.notOlder, ⟨hne, fun s hs => ?_⟩, h.seen⟩
    obtain ⟨hs, hse⟩ := List.mem_filter.mp hs
    have hs' := (hours s).mp hs
    exact h.agreed s hs'.1 hs'.2 (by simpa [he] using hse)

/-- Over a reading from superblocks a leg of an assembled volume is in sync
when its member's is among them and proves it, and only then. -/
theorem replicas_inSync_iff (vol : DistVolume) (hup : vol.assembly = .assembled ∨ vol.assembly = .degraded)
    (last : Option ArrayReading) (bodies : List SuperblockBody)
    (hd : ((bodies.filterMap parseSuperblock).map (·.memberUuid)).Nodup) {i : Nat} {leg : Leg}
    (hleg : (copies vol)[i]? = some leg) (hc : leg.state = .created) :
    ((replicas vol (fromSuperblocks vol last (bodies.filterMap parseSuperblock)))[i]?.map (·.sync) = some .inSync ↔
      ∃ head arrayId sb, vol.head = some head ∧ vol.arrayId = some arrayId ∧
        sb ∈ bodies.filterMap parseSuperblock ∧ IsMember leg sb ∧
        Proven head arrayId last (bodies.filterMap parseSuperblock) sb) := by
  set sbs := bodies.filterMap parseSuperblock with hsbs
  have hlower : ∀ sb ∈ sbs, sb.memberUuid.toLower = sb.memberUuid := by
    intro sb hsb
    obtain ⟨b, -, hb⟩ := List.mem_filterMap.mp hsb
    exact lower_parseSuperblock hb
  -- the leg's copy is in sync when its member in the reading is active
  have hsync : (replicas vol (fromSuperblocks vol last sbs))[i]?.map (·.sync) = some .inSync ↔
      ∃ r m, fromSuperblocks vol last sbs = some r ∧ some r.head = vol.head ∧ some r.arrayId = vol.arrayId ∧
        memberOf leg r = some m ∧ m.state = "active" := by
    rw [replicas]
    simp only [List.getElem?_map, hleg, Option.map_some, Option.some.injEq]
    rw [syncOf_inSync hup hc]
    simp only [Option.filter_eq_some_iff, decide_eq_true_eq]
    exact ⟨fun ⟨r, m, ⟨h1, h2, h3⟩, h4⟩ => ⟨r, m, h1, h2, h3, h4⟩, fun ⟨r, m, h1, h2, h3, h4⟩ => ⟨r, m, ⟨h1, h2, h3⟩, h4⟩⟩
  rw [hsync]
  cases hh : vol.head with
  | none =>
    have hnone : fromSuperblocks vol last sbs = none := by rw [fromSuperblocks, hh]; rfl
    simp [hnone]
  | some head =>
    cases ha : vol.arrayId with
    | none =>
      have hnone : fromSuperblocks vol last sbs = none := by rw [fromSuperblocks, hh, ha]; rfl
      simp [hnone]
    | some arrayId =>
      set ours := sbs.filter fun s => s.arrayUuid.toLower = arrayId.toLower with hours
      have hmem : ∀ sb, sb ∈ ours ↔ sb ∈ sbs ∧ sb.arrayUuid.toLower = arrayId.toLower := by
        intro sb
        rw [hours, List.mem_filter, decide_eq_true_eq]
      cases htop : (ours.map (·.events)).max? with
      | none =>
        have hnil : ours = [] := by simpa using List.max?_eq_none_iff.mp htop
        have hnone : fromSuperblocks vol last sbs = none := by
          rw [fromSuperblocks, hh, ha]
          show (ours.map (·.events)).max?.bind _ = none
          rw [htop]
          rfl
        rw [hnone]
        refine ⟨fun ⟨r, m, h, _⟩ => (nomatch h), ?_⟩
        rintro ⟨head', array', sb, h1, h2, hsb, -, hp⟩
        obtain rfl := Option.some.inj h2
        exact absurd ((hmem sb).mpr ⟨hsb, hp.ours⟩) (by rw [hnil]; simp)
      | some top =>
        have hsub : ∀ sb ∈ ours, sb ∈ sbs := fun sb h => ((hmem sb).mp h).1
        obtain ⟨r, hr, hhead, harray, hmembers⟩ : ∃ r, fromSuperblocks vol last sbs = some r ∧ r.head = head ∧
            r.arrayId = arrayId ∧ r.members = ours.map (memberFrom (liveReading head arrayId last) top
              (ours.filter (·.events = top))) := by
          rw [fromSuperblocks, hh, ha]
          show ∃ r, (ours.map (·.events)).max?.bind _ = some r ∧ _
          rw [htop]
          exact ⟨_, rfl, rfl, rfl, rfl⟩
        have hfound : ∀ m, memberOf leg r = some m ↔ ∃ sb ∈ ours, IsMember leg sb ∧
            m = memberFrom (liveReading head arrayId last) top (ours.filter (·.events = top)) sb := fun m =>
          memberOf_iff hmembers (fun sb => ⟨rfl, rfl⟩) (fun sb h => hlower sb (hsub sb h))
            (hd.sublist (List.filter_sublist.map _))
        constructor
        · rintro ⟨r', m, h, -, -, hm, hs⟩
          obtain rfl := Option.some.inj (hr.symm.trans h)
          obtain ⟨sb, hsb, his, rfl⟩ := (hfound m).mp hm
          exact ⟨head, arrayId, sb, rfl, rfl, hsub sb hsb, his, (memberFrom_proven hmem htop hsb).mp hs⟩
        · rintro ⟨head', array', sb, h1, h2, hsb, his, hp⟩
          obtain rfl := Option.some.inj h1
          obtain rfl := Option.some.inj h2
          have hin := (hmem sb).mpr ⟨hsb, hp.ours⟩
          exact ⟨r, _, hr, by rw [hhead], by rw [harray], (hfound _).mpr ⟨sb, hin, his, rfl⟩,
            (memberFrom_proven hmem htop hin).mpr hp⟩

/-- A pair whose head is away, and what its other leg says of itself. -/
def bereft : DistVolume where
  name := "v"
  sizeBytes := 10
  pool := none
  replicas := 2
  rung := "node"
  legs := [{ node := "a", volumeId := some "a1", state := .lost, memberUuid := some "M1" },
    { node := "b", volumeId := some "b1", state := .created, memberUuid := some "M2" }]
  assembly := .degraded
  head := some "a"
  arrayId := some "R"
  createdAt := 0

def survivorBody : SuperblockBody where
  arrayUuid := some "r"
  memberUuid := some "m2"
  events := some 7
  slots := [{ memberUuid := some "m1", state := some "failed" }, { memberUuid := some "m2", state := some "Active" }]

theorem replicas_inSync_bereft :
    (replicas bereft (fromSuperblocks bereft none ([survivorBody].filterMap parseSuperblock)))[1]?.map (·.sync) =
        some .inSync ∧
      ∃ head arrayId sb, bereft.head = some head ∧ bereft.arrayId = some arrayId ∧
        sb ∈ [survivorBody].filterMap parseSuperblock ∧
        IsMember { node := "b", volumeId := some "b1", state := .created, memberUuid := some "M2" } sb ∧
        Proven head arrayId none ([survivorBody].filterMap parseSuperblock) sb :=
  have h : (replicas bereft (fromSuperblocks bereft none ([survivorBody].filterMap parseSuperblock)))[1]?.map (·.sync) =
      some .inSync := by decide +kernel
  ⟨h, (replicas_inSync_iff bereft (.inr rfl) none [survivorBody] (by decide +kernel) rfl rfl).mp h⟩

end StormStorage.Head
