import Mathlib.Data.Prod.Lex
import Mathlib.Data.String.Basic
import StormStorage.Placement
import StormStorage.Selection

/-!
# What the planner picks

A candidate's rank is its score, the highest first, and then its name; its
group is its failure domain.

* `leading_bestOf`: the best of each domain, as the loop over the candidates
  finds it, is the leader of the domain;
* `plan_ok_iff`: a plan is made when some candidate fits and the fitting ones
  span as many domains as there are copies;
* `plan_spec`: it is a selection, whatever order the candidates come in;
* `planPreferring_spec`: with a preference a plan is made in the same cases;
* `domainAt_separates`: which label chains one domain stands for.
-/

namespace StormStorage

open Selection

/-! ## Ranks and domains -/

/-- A candidate's score among those that fit. -/
def score (cands : List Candidate) (ioWeight : ℚ) (c : Candidate) : ℚ := (scores cands ioWeight)[c.name]?.getD 0

/-- The best first: the higher score, then the lower name. -/
def rankBy (s : Candidate → ℚ) (c : Candidate) : ℚᵒᵈ ×ₗ String := toLex (OrderDual.toDual (s c), c.name)

def fitting (cs : List Candidate) (sizeBytes : Nat) : List Candidate := cs.filter fun c => sizeBytes ≤ c.freeBytes

def domainOf (rungs : List String) (rung : String) (c : Candidate) : String := domainAt c.labels rungs rung

/-- The different domains of the candidates. -/
def domainsOf (rungs : List String) (rung : String) (cs : List Candidate) : List String :=
  (cs.map (domainOf rungs rung)).dedup

variable {ioWeight : ℚ} {rungs : List String} {rung : String} {s : Candidate → ℚ} {cs : List Candidate}
  {replicas sizeBytes : Nat}

theorem mem_fitting {c : Candidate} : c ∈ fitting cs sizeBytes ↔ c ∈ cs ∧ sizeBytes ≤ c.freeBytes := by
  rw [fitting, List.mem_filter, decide_eq_true_eq]

theorem mem_domainsOf {d : String} : d ∈ domainsOf rungs rung cs ↔ ∃ c ∈ cs, domainOf rungs rung c = d := by
  rw [domainsOf, List.mem_dedup, List.mem_map]

theorem better_iff {c cur : Candidate} : better s c cur = true ↔ rankBy s c < rankBy s cur := by
  rw [better, decide_eq_true_eq, rankBy, rankBy, Prod.Lex.toLex_lt_toLex, OrderDual.toDual_lt_toDual,
    OrderDual.toDual_inj]

theorem sorts_iff {a b : Candidate} :
    (s b < s a ∨ s a = s b ∧ a.name ≤ b.name) ↔ rankBy s a ≤ rankBy s b := by
  rw [rankBy, rankBy, Prod.Lex.toLex_le_toLex, OrderDual.toDual_lt_toDual, OrderDual.toDual_inj]

/-- Candidates of different names rank differently. -/
theorem rankBy_injOn (s : Candidate → ℚ) (hd : (cs.map (·.name)).Nodup) :
    Set.InjOn (rankBy s) {c | c ∈ cs} := by
  intro a ha b hb h
  have hn : a.name = b.name := congrArg (fun r => (ofLex r).2) h
  exact List.inj_on_of_nodup_map hd ha hb hn

/-! ## The best of each domain -/

/-- The map holds the leader of each domain. -/
def Leading (rungs : List String) (rung : String) (s : Candidate → ℚ) (seen : List Candidate)
    (best : KeyMap Candidate) : Prop :=
  ∀ (d : String) c, best[d]? = some c ↔ Leads (domainOf rungs rung) (rankBy s) seen c ∧ domainOf rungs rung c = d

/-- One more candidate changes the leader of its own domain only. -/
theorem Leading.step {seen : List Candidate} {best best' : KeyMap Candidate} {c y : Candidate}
    (h : Leading rungs rung s seen best) (hself : best'[domainOf rungs rung c]? = some y)
    (hother : ∀ d : String, domainOf rungs rung c ≠ d → best'[d]? = best[d]?)
    (hlead : ∀ x, domainOf rungs rung x = domainOf rungs rung c →
      (Leads (domainOf rungs rung) (rankBy s) (c :: seen) x ↔ x = y)) :
    Leading rungs rung s (c :: seen) best' := by
  have hy : domainOf rungs rung y = domainOf rungs rung c := by
    obtain ⟨l, hl, hk⟩ := show ∃ l, Leads (domainOf rungs rung) (rankBy s) (c :: seen) l ∧
      domainOf rungs rung l = domainOf rungs rung c from exists_leads (List.mem_cons_self ..)
    exact (hlead l hk).mp hl ▸ hk
  intro d x
  by_cases hd : domainOf rungs rung c = d
  · subst hd
    rw [hself, Option.some.injEq]
    constructor
    · rintro rfl
      exact ⟨(hlead _ hy).mpr rfl, hy⟩
    · rintro ⟨hl, hk⟩
      exact ((hlead x hk).mp hl).symm
  · rw [hother d hd, h d x]
    refine and_congr_left fun hk => (leads_cons_of_ne ?_).symm
    rw [hk]
    exact Ne.symm hd

theorem bestOf_cons (c : Candidate) (xs : List Candidate) (best : KeyMap Candidate) :
    bestOf rungs rung s (c :: xs) best = bestOf rungs rung s xs (match best[domainOf rungs rung c]? with
      | none => best.insert (domainOf rungs rung c) c
      | some cur => if better s c cur then best.insert (domainOf rungs rung c) c else best) := rfl

theorem leading_bestOf (xs : List Candidate) {seen : List Candidate} {best : KeyMap Candidate}
    (hi : Set.InjOn (rankBy s) {c | c ∈ xs.reverse ++ seen}) (h : Leading rungs rung s seen best) :
    Leading rungs rung s (xs.reverse ++ seen) (bestOf rungs rung s xs best) := by
  induction xs generalizing seen best with
  | nil => exact h
  | cons c xs ih =>
    rw [List.reverse_cons, List.append_assoc, List.singleton_append] at hi ⊢
    rw [bestOf_cons]
    refine ih hi ?_
    have hi' : Set.InjOn (rankBy s) {x | x ∈ c :: seen} := hi.mono fun x hx => List.mem_append_right _ hx
    have hins : ∀ d : String, domainOf rungs rung c ≠ d → (best.insert (domainOf rungs rung c) c)[d]? = best[d]? :=
      fun d hd => KeyMap.get_insert_ne _ _ hd
    cases hb : best[domainOf rungs rung c]? with
    | none =>
      refine h.step (KeyMap.get_insert_self ..) hins fun x hx => leads_cons_fresh (fun y hy hk => ?_) hx
      obtain ⟨l, hl, hlk⟩ := show ∃ l, Leads (domainOf rungs rung) (rankBy s) seen l ∧
        domainOf rungs rung l = domainOf rungs rung y from exists_leads hy
      rw [(h _ l).mpr ⟨hl, hlk.trans hk⟩] at hb
      cases hb
    | some cur =>
      obtain ⟨hl, hk⟩ := (h _ cur).mp hb
      dsimp only
      split
      · rename_i hbet
        exact h.step (KeyMap.get_insert_self ..) hins fun x hx => leads_cons_better hl hk (better_iff.mp hbet) hx
      · rename_i hbet
        have hle : rankBy s cur ≤ rankBy s c := not_lt.mp fun hlt => hbet (better_iff.mpr hlt)
        exact h.step hb (fun _ _ => rfl) fun x hx => leads_cons_worse hi' hl hk hle hx

theorem leading_plan (hd : (cs.map (·.name)).Nodup) :
    Leading rungs rung s cs (bestOf rungs rung s cs ∅) := by
  have hm : ∀ c, c ∈ cs.reverse ++ [] ↔ c ∈ cs := fun c => by rw [List.append_nil, List.mem_reverse]
  have hi : Set.InjOn (rankBy s) {c | c ∈ cs.reverse ++ []} :=
    (rankBy_injOn s hd).mono fun c hc => (hm c).mp hc
  have hstart : Leading rungs rung s [] ∅ := by
    intro d c
    constructor
    · intro h
      rw [KeyMap.get_empty] at h
      cases h
    · intro h
      cases h.1.1
  intro d c
  rw [leading_bestOf cs hi hstart d c]
  exact and_congr_left fun _ => ⟨fun h => h.congr hm, fun h => h.congr fun c => (hm c).symm⟩

/-! ## When there is a plan -/

theorem isSome_bestOf (xs : List Candidate) (best : KeyMap Candidate) (d : String) :
    (bestOf rungs rung s xs best)[d]?.isSome ↔ best[d]?.isSome ∨ ∃ c ∈ xs, domainOf rungs rung c = d := by
  induction xs generalizing best with
  | nil => simp [bestOf]
  | cons c xs ih =>
    have hins : (best.insert (domainOf rungs rung c) c)[d]?.isSome ↔
        best[d]?.isSome ∨ domainOf rungs rung c = d := by
      rw [KeyMap.get_insert]
      by_cases hd : domainOf rungs rung c = d <;> simp [hd]
    rw [bestOf_cons, ih, List.exists_mem_cons_iff, ← or_assoc]
    refine or_congr_left ?_
    split
    · exact hins
    · rename_i cur hcur
      split
      · exact hins
      · refine ⟨Or.inl, fun h => h.elim id fun hd => ?_⟩
        rw [← hd, hcur]
        rfl

/-- The loop ends with an entry for each domain. -/
theorem length_bestOf (xs : List Candidate) :
    (bestOf rungs rung s xs ∅).toList.length = (domainsOf rungs rung xs).length := by
  have hp : ((bestOf rungs rung s xs ∅).toList.map Prod.fst).Perm (domainsOf rungs rung xs) := by
    refine (List.perm_ext_iff_of_nodup (KeyMap.nodup_toList _) (List.nodup_dedup _)).mpr fun d => ?_
    rw [Std.ExtTreeMap.map_fst_toList_eq_keys, KeyMap.mem_keys, isSome_bestOf, KeyMap.get_empty, ← domainsOf,
      mem_domainsOf]
    simp
  rw [← hp.length_eq, List.length_map]

/-- The picks of a plan that is made. -/
def picksOf (ioWeight : ℚ) (rungs : List String) (rung : String) (cs : List Candidate) (replicas : Nat) :
    List Candidate :=
  let s := score cs ioWeight
  (((bestOf rungs rung s cs ∅).toList.map Prod.snd).insertionSort fun a b =>
    s b < s a ∨ s a = s b ∧ a.name ≤ b.name).take replicas

theorem plan_eq_ok {picks : List String} :
    plan ioWeight rungs rung cs replicas sizeBytes = .ok picks ↔
      (∃ c ∈ cs, sizeBytes ≤ c.freeBytes) ∧ replicas ≤ (domainsOf rungs rung (fitting cs sizeBytes)).length ∧
        picks = (picksOf ioWeight rungs rung (fitting cs sizeBytes) replicas).map (·.name) := by
  have hne : (fitting cs sizeBytes).isEmpty = false ↔ ∃ c ∈ cs, sizeBytes ≤ c.freeBytes := by
    rw [List.isEmpty_eq_false_iff_exists_mem]
    simp only [mem_fitting]
  rw [← hne, ← length_bestOf (s := score (fitting cs sizeBytes) ioWeight)]
  show (if (fitting cs sizeBytes).isEmpty then _
    else if (bestOf rungs rung (score (fitting cs sizeBytes) ioWeight) (fitting cs sizeBytes) ∅).toList.length <
        replicas then _
    else Except.ok ((picksOf ioWeight rungs rung (fitting cs sizeBytes) replicas).map (·.name))) = _ ↔ _
  cases he : (fitting cs sizeBytes).isEmpty with
  | true => simp
  | false =>
    rw [if_neg (by simp)]
    split
    · rename_i hlt
      simp only [reduceCtorEq, true_and, false_iff, not_and]
      omega
    · rename_i hge
      rw [Except.ok.injEq]
      refine ⟨fun h => ⟨rfl, by omega, h.symm⟩, fun h => h.2.2.symm⟩

theorem plan_ok_iff :
    (∃ picks, plan ioWeight rungs rung cs replicas sizeBytes = .ok picks) ↔
      (∃ c ∈ cs, sizeBytes ≤ c.freeBytes) ∧ replicas ≤ (domainsOf rungs rung (fitting cs sizeBytes)).length := by
  simp only [plan_eq_ok]
  exact ⟨fun ⟨_, h⟩ => ⟨h.1, h.2.1⟩, fun h => ⟨_, h.1, h.2, rfl⟩⟩

/-! ## What is picked -/

theorem picksOf_selected (hd : (cs.map (·.name)).Nodup) (h : replicas ≤ (domainsOf rungs rung cs).length) :
    Selected (domainOf rungs rung) (rankBy (score cs ioWeight)) cs replicas
      (picksOf ioWeight rungs rung cs replicas) := by
  set s := score cs ioWeight with hs
  set best := bestOf rungs rung s cs ∅ with hb
  have hlead : Leading rungs rung s cs best := leading_plan hd
  have hperm := List.perm_insertionSort (fun a b => s b < s a ∨ s a = s b ∧ a.name ≤ b.name) (best.toList.map Prod.snd)
  have htotal : Std.Total fun a b : Candidate => s b < s a ∨ s a = s b ∧ a.name ≤ b.name :=
    ⟨fun a b => by rw [sorts_iff, sorts_iff]; exact le_total ..⟩
  have htrans : IsTrans Candidate fun a b => s b < s a ∨ s a = s b ∧ a.name ≤ b.name :=
    ⟨fun a b c hab hbc => by rw [sorts_iff] at *; exact hab.trans hbc⟩
  refine selected_take (fun c => ?_) ?_ ?_ ?_
  · rw [hperm.mem_iff, List.mem_map]
    constructor
    · rintro ⟨⟨d, c'⟩, hm, rfl⟩
      exact ((hlead d c').mp (KeyMap.mem_toList.mp hm)).1
    · intro hc
      exact ⟨(domainOf rungs rung c, c), KeyMap.mem_toList.mpr ((hlead _ c).mpr ⟨hc, rfl⟩), rfl⟩
  · rw [(hperm.map _).nodup_iff, List.map_map]
    refine (List.map_congr_left fun p hp => ?_) ▸ KeyMap.nodup_toList best
    exact ((hlead p.1 p.2).mp (KeyMap.mem_toList.mp hp)).2.symm
  · exact (List.pairwise_insertionSort _ _).imp sorts_iff.mp
  · rw [hperm.length_eq, List.length_map, length_bestOf]
    exact h

/-! ## The order of the candidates -/

theorem get_scores_of_notMem {f : Candidate → ℚ} {k : String} (h : k ∉ cs.map (·.name)) (m : KeyMap ℚ) :
    (cs.foldl (fun m c => m.insert c.name (f c)) m)[k]? = m[k]? := by
  induction cs generalizing m with
  | nil => rfl
  | cons a cs ih =>
    rw [List.map_cons, List.mem_cons, not_or] at h
    rw [List.foldl_cons, ih h.2, KeyMap.get_insert_ne _ _ (Ne.symm h.1)]

theorem get_scores_of_mem {f : Candidate → ℚ} (hd : (cs.map (·.name)).Nodup) {c : Candidate} (hc : c ∈ cs)
    (m : KeyMap ℚ) : (cs.foldl (fun m c => m.insert c.name (f c)) m)[c.name]? = some (f c) := by
  induction cs generalizing m with
  | nil => cases hc
  | cons a cs ih =>
    rw [List.map_cons, List.nodup_cons] at hd
    rw [List.foldl_cons]
    rcases List.mem_cons.mp hc with rfl | hm
    · rw [get_scores_of_notMem hd.1, KeyMap.get_insert_self]
    · exact ih hd.2 hm _

/-- With different names each candidate has its own score. -/
theorem score_of_mem (hd : (cs.map (·.name)).Nodup) {c : Candidate} (hc : c ∈ cs) :
    score cs ioWeight c = rating cs ioWeight c := by
  rw [score, scores, get_scores_of_mem hd hc]
  rfl

theorem rating_perm {cs' : List Candidate} (h : cs'.Perm cs) (c : Candidate) :
    rating cs' ioWeight c = rating cs ioWeight c := by
  have hk : ((cs'.filterMap (·.ioBusy)).map (max · 0)).Perm ((cs.filterMap (·.ioBusy)).map (max · 0)) :=
    (h.filterMap _).map _
  have hmost : ((cs'.filterMap (·.ioBusy)).map (max · 0)).foldl max 0 =
      ((cs.filterMap (·.ioBusy)).map (max · 0)).foldl max 0 :=
    hk.foldl_eq' (fun a _ b _ z => max_right_comm z a b) 0
  rw [rating, rating, hmost, hk.sum_eq, hk.length_eq, hk.isEmpty_eq]

theorem scores_perm {cs' : List Candidate} (hd : (cs.map (·.name)).Nodup) (h : cs'.Perm cs) :
    scores cs' ioWeight = scores cs ioWeight := by
  have hd' : (cs'.map (·.name)).Nodup := (h.map _).nodup_iff.mpr hd
  refine KeyMap.ext fun k => ?_
  by_cases hk : k ∈ cs.map (·.name)
  · obtain ⟨c, hc, rfl⟩ := List.mem_map.mp hk
    rw [scores, scores, get_scores_of_mem hd hc, get_scores_of_mem hd' (h.mem_iff.mpr hc), rating_perm h]
  · rw [scores, scores, get_scores_of_notMem hk, get_scores_of_notMem fun hk' => hk ((h.map _).mem_iff.mp hk')]

/-- The plan does not depend on the order of the candidates. -/
theorem plan_perm {cs' : List Candidate} (hd : (cs.map (·.name)).Nodup) (h : cs'.Perm cs) :
    plan ioWeight rungs rung cs' replicas sizeBytes = plan ioWeight rungs rung cs replicas sizeBytes := by
  have hf : (fitting cs' sizeBytes).Perm (fitting cs sizeBytes) := h.filter _
  have hdf : ((fitting cs sizeBytes).map (·.name)).Nodup := hd.sublist (List.filter_sublist.map _)
  have hdf' : ((fitting cs' sizeBytes).map (·.name)).Nodup := (hf.map _).nodup_iff.mpr hdf
  have hbest : bestOf rungs rung (score (fitting cs sizeBytes) ioWeight) (fitting cs' sizeBytes) ∅ =
      bestOf rungs rung (score (fitting cs sizeBytes) ioWeight) (fitting cs sizeBytes) ∅ := by
    refine KeyMap.ext fun d => Option.ext fun c => ?_
    rw [leading_plan hdf' d c, leading_plan hdf d c]
    exact and_congr_left fun _ =>
      ⟨fun hl => hl.congr fun _ => hf.mem_iff, fun hl => hl.congr fun _ => hf.mem_iff.symm⟩
  have hempty : (cs'.filter fun c => decide (sizeBytes ≤ c.freeBytes)).isEmpty =
      (cs.filter fun c => decide (sizeBytes ≤ c.freeBytes)).isEmpty := hf.isEmpty_eq
  have hscores : scores (cs'.filter fun c => decide (sizeBytes ≤ c.freeBytes)) ioWeight =
      scores (cs.filter fun c => decide (sizeBytes ≤ c.freeBytes)) ioWeight := scores_perm hdf hf
  unfold plan
  simp only [hempty, hscores, h.length_eq]
  rw [show bestOf rungs rung (fun c => (scores (cs.filter fun c => decide (sizeBytes ≤ c.freeBytes)) ioWeight)[c.name]?.getD
    0) (cs'.filter fun c => decide (sizeBytes ≤ c.freeBytes)) ∅ = _ from hbest]
  rfl

/-- The plan is a selection of the fitting candidates, made exactly when there
are domains enough, in whatever order the candidates come. -/
theorem plan_spec (ioWeight : ℚ) (rungs : List String) (rung : String) (cs : List Candidate)
    (hd : (cs.map (·.name)).Nodup) (replicas sizeBytes : Nat) :
    ((∃ picks, plan ioWeight rungs rung cs replicas sizeBytes = .ok picks) ↔
        (∃ c ∈ cs, sizeBytes ≤ c.freeBytes) ∧ replicas ≤ (domainsOf rungs rung (fitting cs sizeBytes)).length) ∧
      (∀ picks, plan ioWeight rungs rung cs replicas sizeBytes = .ok picks →
        ∃ ps, picks = ps.map (·.name) ∧ Selected (domainOf rungs rung)
          (rankBy (score (fitting cs sizeBytes) ioWeight)) (fitting cs sizeBytes) replicas ps) ∧
      ∀ cs', cs'.Perm cs →
        plan ioWeight rungs rung cs' replicas sizeBytes = plan ioWeight rungs rung cs replicas sizeBytes := by
  refine ⟨plan_ok_iff, fun picks h => ?_, fun cs' h => plan_perm hd h⟩
  obtain ⟨-, hlen, rfl⟩ := plan_eq_ok.mp h
  have hdf : ((fitting cs sizeBytes).map (·.name)).Nodup := hd.sublist (List.filter_sublist.map _)
  exact ⟨_, rfl, picksOf_selected hdf hlen⟩

/-- Two nodes in one rack and one in another. -/
def racks : List Candidate :=
  [{ name := "a1", labels := .ofList [("rack", "r1"), ("node", "a1")], freeBytes := 50, totalBytes := 100 },
    { name := "a2", labels := .ofList [("rack", "r1"), ("node", "a2")], freeBytes := 90, totalBytes := 100 },
    { name := "b1", labels := .ofList [("rack", "r2"), ("node", "b1")], freeBytes := 60, totalBytes := 100 }]

theorem plan_spec_racks :
    plan (3 / 10) ["site", "rack", "cluster", "node"] "rack" racks 2 10 = .ok ["a2", "b1"] ∧
      ∃ ps, ["a2", "b1"] = ps.map (·.name) ∧ Selected (domainOf ["site", "rack", "cluster", "node"] "rack")
        (rankBy (score (fitting racks 10) (3 / 10))) (fitting racks 10) 2 ps :=
  have h : plan (3 / 10) ["site", "rack", "cluster", "node"] "rack" racks 2 10 = .ok ["a2", "b1"] := by decide +kernel
  ⟨h, (plan_spec (3 / 10) ["site", "rack", "cluster", "node"] "rack" racks (by decide) 2 10).2.1 _ h⟩

/-! ## A preferred node -/

/-- The candidate that is asked for has room. -/
def Preferred (cs : List Candidate) (sizeBytes : Nat) (prefer : Option String) (p : Candidate) : Prop :=
  prefer = some p.name ∧ cs.find? (·.name = p.name) = some p ∧ sizeBytes ≤ p.freeBytes

/-- With different names it is the one candidate of that name. -/
theorem preferred_iff (hd : (cs.map (·.name)).Nodup) {n : String} {p : Candidate} :
    Preferred cs sizeBytes (some n) p ↔ p ∈ cs ∧ p.name = n ∧ sizeBytes ≤ p.freeBytes := by
  constructor
  · rintro ⟨hn, hfind, hfit⟩
    exact ⟨List.mem_of_find?_eq_some hfind, (Option.some.inj hn).symm, hfit⟩
  · rintro ⟨hp, rfl, hfit⟩
    refine ⟨rfl, ?_, hfit⟩
    obtain ⟨q, hq⟩ := Option.isSome_iff_exists.mp
      ((List.find?_isSome (p := fun c : Candidate => c.name = p.name)).mpr ⟨p, hp, by simp⟩)
    have hname : q.name = p.name := by simpa using List.find?_some hq
    rw [hq, List.inj_on_of_nodup_map hd (List.mem_of_find?_eq_some hq) hp hname]

/-- The candidates of the other domains. -/
def restOf (rungs : List String) (rung : String) (cs : List Candidate) (p : Candidate) : List Candidate :=
  cs.filter fun c => domainAt c.labels rungs rung ≠ domainAt p.labels rungs rung

theorem mem_restOf {p c : Candidate} :
    c ∈ restOf rungs rung cs p ↔ c ∈ cs ∧ domainOf rungs rung c ≠ domainOf rungs rung p := by
  rw [restOf, List.mem_filter, decide_eq_true_eq]
  rfl

/-- The others span one domain less. -/
theorem domainsOf_rest (rungs : List String) (rung : String) {p : Candidate} (hp : p ∈ cs) (hfit : sizeBytes ≤ p.freeBytes) :
    (domainsOf rungs rung (fitting cs sizeBytes)).length =
      (domainsOf rungs rung (fitting (restOf rungs rung cs p) sizeBytes)).length + 1 := by
  have hout : domainOf rungs rung p ∉ domainsOf rungs rung (fitting (restOf rungs rung cs p) sizeBytes) := by
    intro hm
    obtain ⟨c, hc, he⟩ := mem_domainsOf.mp hm
    exact (mem_restOf.mp (mem_fitting.mp hc).1).2 he
  have hperm : (domainsOf rungs rung (fitting cs sizeBytes)).Perm
      (domainOf rungs rung p :: domainsOf rungs rung (fitting (restOf rungs rung cs p) sizeBytes)) := by
    refine (List.perm_ext_iff_of_nodup (List.nodup_dedup _)
      (List.nodup_cons.mpr ⟨hout, List.nodup_dedup _⟩)).mpr fun d => ?_
    rw [List.mem_cons, ← domainsOf, mem_domainsOf, mem_domainsOf]
    constructor
    · rintro ⟨c, hc, rfl⟩
      obtain ⟨hm, hsize⟩ := mem_fitting.mp hc
      by_cases hd : domainOf rungs rung c = domainOf rungs rung p
      · exact .inl hd
      · exact .inr ⟨c, mem_fitting.mpr ⟨mem_restOf.mpr ⟨hm, hd⟩, hsize⟩, rfl⟩
    · rintro (rfl | ⟨c, hc, rfl⟩)
      · exact ⟨p, mem_fitting.mpr ⟨hp, hfit⟩, rfl⟩
      · obtain ⟨hm, hsize⟩ := mem_fitting.mp hc
        exact ⟨c, mem_fitting.mpr ⟨(mem_restOf.mp hm).1, hsize⟩, rfl⟩
  rw [hperm.length_eq, List.length_cons]

/-- The legs beside the preferred one. -/
def othersOf (ioWeight : ℚ) (rungs : List String) (rung : String) (cs : List Candidate) (p : Candidate)
    (replicas sizeBytes : Nat) : Except String (List String) :=
  if replicas = 1 then .ok [] else plan ioWeight rungs rung (restOf rungs rung cs p) (replicas - 1) sizeBytes

/-- The rest can be placed beside the preferred one exactly when all can. -/
theorem othersOf_ok_iff {p : Candidate} (hp : p ∈ cs) (hfit : sizeBytes ≤ p.freeBytes) (h1 : 1 ≤ replicas) :
    (∃ others, othersOf ioWeight rungs rung cs p replicas sizeBytes = .ok others) ↔
      ∃ picks, plan ioWeight rungs rung cs replicas sizeBytes = .ok picks := by
  have hlen := domainsOf_rest rungs rung hp hfit
  rw [plan_ok_iff, othersOf]
  split
  · exact ⟨fun _ => ⟨⟨p, hp, hfit⟩, by omega⟩, fun _ => ⟨[], rfl⟩⟩
  · rw [plan_ok_iff]
    constructor
    · rintro ⟨-, hle⟩
      exact ⟨⟨p, hp, hfit⟩, by omega⟩
    · rintro ⟨-, hle⟩
      have hpos : 0 < (domainsOf rungs rung (fitting (restOf rungs rung cs p) sizeBytes)).length := by omega
      obtain ⟨d, hd⟩ := List.exists_mem_of_length_pos hpos
      obtain ⟨c, hc, -⟩ := mem_domainsOf.mp hd
      exact ⟨⟨c, mem_fitting.mp hc⟩, by omega⟩

/-- What the preference leads to: the preferred candidate and the rest beside
it, or the plain plan. -/
theorem planPreferring_eq (ioWeight : ℚ) (rungs : List String) (rung : String) (cs : List Candidate)
    (replicas sizeBytes : Nat) (prefer : Option String) :
    (∃ p others, Preferred cs sizeBytes prefer p ∧ 1 ≤ replicas ∧
        othersOf ioWeight rungs rung cs p replicas sizeBytes = .ok others ∧
        planPreferring ioWeight rungs rung cs replicas sizeBytes prefer = .ok (p.name :: others, true)) ∨
      ((∀ p, Preferred cs sizeBytes prefer p → 1 ≤ replicas →
          ∀ others, othersOf ioWeight rungs rung cs p replicas sizeBytes ≠ .ok others) ∧
        planPreferring ioWeight rungs rung cs replicas sizeBytes prefer =
          (plan ioWeight rungs rung cs replicas sizeBytes).map fun p => (p, false)) := by
  have huniq : ∀ {p q}, Preferred cs sizeBytes prefer p → (prefer.bind fun n => cs.find? (·.name = n)) = some q →
      q = p := by
    intro p q hp hq
    rw [hp.1, Option.bind_some, hp.2.1] at hq
    exact (Option.some.inj hq).symm
  unfold planPreferring
  cases hfind : prefer.bind fun n => cs.find? (·.name = n) with
  | none =>
    refine .inr ⟨fun p hp => ?_, rfl⟩
    rw [hp.1, Option.bind_some, hp.2.1] at hfind
    cases hfind
  | some q =>
    obtain ⟨n, hn, hq⟩ := Option.bind_eq_some_iff.mp hfind
    have hname : q.name = n := by simpa using List.find?_some hq
    dsimp only
    by_cases hfit : sizeBytes ≤ q.freeBytes ∧ 1 ≤ replicas
    · rw [if_pos hfit]
      have hpref : Preferred cs sizeBytes prefer q := ⟨by rw [hname, hn], by rw [hname, hq], hfit.1⟩
      cases hothers : othersOf ioWeight rungs rung cs q replicas sizeBytes with
      | ok others =>
        refine .inl ⟨q, others, hpref, hfit.2, hothers, ?_⟩
        rw [othersOf, restOf] at hothers
        rw [hothers]
      | error e =>
        refine .inr ⟨fun p hp _ others h => ?_, ?_⟩
        · rw [← huniq hp hfind, hothers] at h
          cases h
        · rw [othersOf, restOf] at hothers
          rw [hothers]
    · rw [if_neg hfit]
      exact .inr ⟨fun p hp h1 => absurd ⟨huniq hp hfind ▸ hp.2.2, h1⟩ hfit, rfl⟩

/-- A plan with a preference is made when a plain one is, with as many
candidates with room of different domains; the preferred one leads exactly
when it has room and there is a plan at all. -/
theorem planPreferring_spec (ioWeight : ℚ) (rungs : List String) (rung : String) (cs : List Candidate)
    (replicas sizeBytes : Nat) (prefer : Option String) :
    ((∃ r, planPreferring ioWeight rungs rung cs replicas sizeBytes prefer = .ok r) ↔
        ∃ picks, plan ioWeight rungs rung cs replicas sizeBytes = .ok picks) ∧
      (∀ picks led, planPreferring ioWeight rungs rung cs replicas sizeBytes prefer = .ok (picks, led) →
        (∃ ps : List Candidate, picks = ps.map (·.name) ∧ ps.length = replicas ∧
          (∀ c ∈ ps, c ∈ cs ∧ sizeBytes ≤ c.freeBytes) ∧ (ps.map (domainOf rungs rung)).Nodup) ∧
        (led = true → ∃ p, Preferred cs sizeBytes prefer p ∧ picks.head? = some p.name)) ∧
      ((∃ picks, planPreferring ioWeight rungs rung cs replicas sizeBytes prefer = .ok (picks, true)) ↔
        (∃ p, Preferred cs sizeBytes prefer p) ∧ 1 ≤ replicas ∧
          ∃ picks, plan ioWeight rungs rung cs replicas sizeBytes = .ok picks) := by
  rcases planPreferring_eq ioWeight rungs rung cs replicas sizeBytes prefer with
    ⟨p, others, hp, h1, hothers, heq⟩ | ⟨hnone, heq⟩
  · have hplan := (othersOf_ok_iff (List.mem_of_find?_eq_some hp.2.1) hp.2.2 h1).mp ⟨others, hothers⟩
    refine ⟨⟨fun _ => hplan, fun _ => ⟨_, heq⟩⟩, fun picks led h => ?_, ⟨fun _ => ⟨⟨p, hp⟩, h1, hplan⟩,
      fun _ => ⟨_, heq⟩⟩⟩
    obtain ⟨ps, hps, hin, hd, hlen⟩ := planPreferring_picks h
    rw [heq] at h
    cases h
    exact ⟨⟨ps, hps, hlen, hin, hd⟩, fun _ => ⟨p, hp, rfl⟩⟩
  · rw [heq]
    refine ⟨?_, fun picks led h => ?_, ?_⟩
    · cases plan ioWeight rungs rung cs replicas sizeBytes with
      | error e => exact ⟨fun ⟨r, h⟩ => (nomatch h), fun ⟨r, h⟩ => (nomatch h)⟩
      | ok picks => exact ⟨fun _ => ⟨picks, rfl⟩, fun _ => ⟨_, rfl⟩⟩
    · obtain ⟨ps, hps, hin, hd, hlen⟩ := planPreferring_picks (heq.trans h)
      refine ⟨⟨ps, hps, hlen, hin, hd⟩, fun hled => ?_⟩
      cases hpl : plan ioWeight rungs rung cs replicas sizeBytes with
      | error e => rw [hpl] at h; cases h
      | ok picks' =>
        rw [hpl] at h
        cases h
        cases hled
    · constructor
      · rintro ⟨picks, h⟩
        cases hpl : plan ioWeight rungs rung cs replicas sizeBytes with
        | error e => rw [hpl] at h; cases h
        | ok picks' => rw [hpl] at h; cases h
      · rintro ⟨⟨p, hp⟩, h1, hplan⟩
        obtain ⟨others, ho⟩ := (othersOf_ok_iff (List.mem_of_find?_eq_some hp.2.1) hp.2.2 h1).mpr hplan
        exact absurd ho (hnone p hp h1 others)

/-! ## Which chains a domain stands for -/

/-- The rungs a node is labelled at from the top down to `rung`, with its
labels. -/
def domainChain (labels : KeyMap String) (rung : String) : List String → List (String × String)
  | [] => []
  | r :: rs => (labels[r]?.map fun v => (r, v)).toList ++ if r = rung then [] else domainChain labels rung rs

variable {labels labels' : KeyMap String}

theorem map_snd_domainChain (rungs : List String) :
    (domainChain labels rung rungs).map Prod.snd = domainParts labels rung rungs := by
  induction rungs with
  | nil => rfl
  | cons r rs ih =>
    rw [domainChain, domainParts, List.map_append, ← ih]
    cases labels[r]? <;> split <;> rfl

theorem domainAt_of_chain (h : domainChain labels rung rungs ≠ []) :
    domainAt labels rungs rung = "/".intercalate ((domainChain labels rung rungs).map Prod.snd) := by
  have hne : domainParts labels rung rungs ≠ [] := by rw [← map_snd_domainChain]; simpa using h
  rw [domainAt, map_snd_domainChain]
  split
  · rename_i he
    exact absurd he hne
  · rfl

/-- A chain that goes on from the one of a coarser rung. -/
theorem domainChain_finer (labels : KeyMap String) {fine : String} (h : rungs.idxOf rung ≤ rungs.idxOf fine) :
    domainChain labels rung rungs <+: domainChain labels fine rungs := by
  induction rungs with
  | nil => exact List.prefix_refl _
  | cons r rs ih =>
    rw [domainChain, domainChain]
    refine (List.prefix_append_right_inj _).mpr ?_
    by_cases hr : r = rung
    · rw [if_pos hr]
      exact List.nil_prefix
    · have hf : r ≠ fine := by
        rintro rfl
        rw [List.idxOf_cons_self, List.idxOf_cons_ne _ hr] at h
        omega
      rw [if_neg hr, if_neg hf]
      refine ih ?_
      rw [List.idxOf_cons_ne _ hr, List.idxOf_cons_ne _ hf] at h
      omega

/-- Values without the separator are read back from the joined domain. -/
theorem intercalate_inj {vs vs' : List String} (hv : vs ≠ []) (hv' : vs' ≠ [])
    (hs : ∀ v ∈ vs, '/' ∉ v.toList) (hs' : ∀ v ∈ vs', '/' ∉ v.toList) :
    "/".intercalate vs = "/".intercalate vs' ↔ vs = vs' := by
  constructor
  · intro h
    have hl := String.toList_split_intercalate hs
    have hl' := String.toList_split_intercalate hs'
    rw [if_neg hv] at hl
    rw [if_neg hv'] at hl'
    rw [← hl, ← hl']
    exact congrArg (fun u : String => (u.split '/').toList.map (·.copy)) h
  · rintro rfl
    rfl

/-- No value of the chain holds the separator. -/
def Slashless (chain : List (String × String)) : Prop := ∀ v ∈ chain.map Prod.snd, '/' ∉ v.toList

theorem domainAt_eq_iff (h : domainChain labels rung rungs ≠ []) (h' : domainChain labels' rung rungs ≠ [])
    (hp : Slashless (domainChain labels rung rungs)) (hp' : Slashless (domainChain labels' rung rungs)) :
    domainAt labels rungs rung = domainAt labels' rungs rung ↔
      (domainChain labels rung rungs).map Prod.snd = (domainChain labels' rung rungs).map Prod.snd := by
  rw [domainAt_of_chain h, domainAt_of_chain h']
  exact intercalate_inj (by simpa using h) (by simpa using h') hp hp'

/-- Chains of the same rungs differ in their values only. -/
theorem chain_eq_iff {c c' : List (String × String)} (h : c.map Prod.fst = c'.map Prod.fst) :
    c.map Prod.snd = c'.map Prod.snd ↔ c = c' := by
  refine ⟨fun hv => ?_, fun he => he ▸ rfl⟩
  rw [← List.zip_unzip c, ← List.zip_unzip c', List.unzip_eq_map, List.unzip_eq_map, h, hv]

/-- Equal chains are one domain. Of values without the separator a domain
stands for the values in order, and of nodes labelled at the same rungs for
the chain; two such nodes that are apart at a rung are apart at every finer
one. -/
theorem domainAt_separates (rungs : List String) (rung : String) (labels labels' : KeyMap String)
    (h : domainChain labels rung rungs ≠ []) (h' : domainChain labels' rung rungs ≠ []) :
    (domainChain labels rung rungs = domainChain labels' rung rungs →
        domainAt labels rungs rung = domainAt labels' rungs rung) ∧
      (Slashless (domainChain labels rung rungs) → Slashless (domainChain labels' rung rungs) →
        (domainAt labels rungs rung = domainAt labels' rungs rung ↔
          (domainChain labels rung rungs).map Prod.snd = (domainChain labels' rung rungs).map Prod.snd)) ∧
      ((domainChain labels rung rungs).map Prod.fst = (domainChain labels' rung rungs).map Prod.fst →
        (Slashless (domainChain labels rung rungs) → Slashless (domainChain labels' rung rungs) →
          (domainAt labels rungs rung = domainAt labels' rungs rung ↔
            domainChain labels rung rungs = domainChain labels' rung rungs)) ∧
        ∀ fine, rungs.idxOf rung ≤ rungs.idxOf fine → Slashless (domainChain labels fine rungs) →
          Slashless (domainChain labels' fine rungs) → domainAt labels rungs rung ≠ domainAt labels' rungs rung →
          domainAt labels rungs fine ≠ domainAt labels' rungs fine) := by
  refine ⟨fun he => ?_, domainAt_eq_iff h h', fun hr => ⟨fun hp hp' => ?_, fun fine hf hp hp' hne heq => hne ?_⟩⟩
  · rw [domainAt_of_chain h, domainAt_of_chain h', he]
  · rw [domainAt_eq_iff h h' hp hp', chain_eq_iff hr]
  · obtain ⟨t, ht⟩ := domainChain_finer labels hf
    obtain ⟨t', ht'⟩ := domainChain_finer labels' hf
    have hnil : domainChain labels fine rungs ≠ [] := fun he => h (List.append_eq_nil_iff.mp (ht.trans he)).1
    have hnil' : domainChain labels' fine rungs ≠ [] := fun he => h' (List.append_eq_nil_iff.mp (ht'.trans he)).1
    rw [domainAt_eq_iff hnil hnil' hp hp', ← ht, ← ht', List.map_append, List.map_append] at heq
    have hlen : ((domainChain labels rung rungs).map Prod.snd).length =
        ((domainChain labels' rung rungs).map Prod.snd).length := by
      simpa using congrArg List.length hr
    rw [domainAt_of_chain h, domainAt_of_chain h', (List.append_inj heq hlen).1]

theorem domainAt_separates_racks :
    domainAt (.ofList [("site", "gw"), ("rack", "r1"), ("node", "n1")]) ["site", "rack", "cluster", "node"] "node" ≠
      domainAt (.ofList [("site", "gw"), ("rack", "r2"), ("node", "n1")]) ["site", "rack", "cluster", "node"] "node" :=
  ((domainAt_separates ["site", "rack", "cluster", "node"] "rack" (.ofList [("site", "gw"), ("rack", "r1"), ("node", "n1")])
    (.ofList [("site", "gw"), ("rack", "r2"), ("node", "n1")]) (by decide) (by decide)).2.2 (by decide)).2 "node"
    (by decide) (by unfold Slashless; decide) (by unfold Slashless; decide) (by decide)

/-- A node of site `x` and one of rack `x` without a site. -/
theorem not_domainAt_separates :
    ¬ ∀ (rungs : List String) (rung : String) (labels labels' : KeyMap String),
      domainChain labels rung rungs ≠ [] → domainChain labels' rung rungs ≠ [] →
        (domainAt labels rungs rung = domainAt labels' rungs rung ↔
          domainChain labels rung rungs = domainChain labels' rung rungs) := by
  intro h
  have hiff := h ["site", "rack"] "rack" (.ofList [("site", "x")]) (.ofList [("rack", "x")]) (by decide) (by decide)
  exact absurd (hiff.mp (by decide)) (by decide)

end StormStorage
