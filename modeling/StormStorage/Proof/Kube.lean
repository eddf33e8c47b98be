import StormStorage.Kube

/-!
# The view of the volumes' claims

`viewOf` keeps the best PV of each (node, volume).

* `viewOf_perm_iff`: the order of the two lists does not matter exactly when
  no volume has two PVs of its best rank.
-/

namespace StormStorage.Kube

abbrev rankAt (k : Key) (vc : VolumeClaim) : Bool ×ₗ Bool := rank vc k.1

theorem viewStep_eq (claims : Std.ExtTreeMap Key Value Key.cmp) (out : View) (pv : Value) :
    viewStep claims out pv = ((entryOf claims pv).map (Best.keep rankAt out)).getD out := by
  unfold viewStep
  cases entryOf claims pv with
  | none => rfl
  | some e =>
    obtain ⟨key, vc⟩ := e
    simp only [Option.map_some, Option.getD_some, Best.keep]
    cases out[key]? with
    | none => rfl
    | some old => simp only [decide_eq_true_eq]

/-- The loop keeps the best PV of each volume. -/
theorem viewOf_eq (pvs pvcs : List Value) :
    viewOf pvs pvcs = Best.of Key.cmp rankAt (entryOf (claimsByName pvcs)) pvs := by
  unfold viewOf Best.of
  generalize (∅ : View) = out
  induction pvs generalizing out with
  | nil => rfl
  | cons pv pvs ih =>
    rw [List.foldl_cons, ih, viewStep_eq, List.filterMap_cons]
    cases entryOf (claimsByName pvcs) pv <;> rfl

theorem claimsByName_perm {pvcs pvcs' : List Value} (hd : (pvcs.filterMap claimName).Nodup) (hp : pvcs'.Perm pvcs) :
    claimsByName pvcs' = claimsByName pvcs := by
  refine Best.ofList_perm ?_ (hp.filterMap _)
  have hm : (pvcs.filterMap fun c => (claimName c).map fun k => (k, c)).map Prod.fst = pvcs.filterMap claimName := by
    rw [List.map_filterMap]
    congr 1
    funext c
    cases claimName c <;> rfl
  rw [hm]
  exact hd

/-- The view could show this PV for a volume of a node. -/
def Offers (pvs pvcs : List Value) (node volume : String) (vc : VolumeClaim) : Prop :=
  ∃ pv ∈ pvs, entryOf (claimsByName pvcs) pv = some ((node, volume), vc)

/-- Two PVs of one volume have the best rank of its PVs. -/
def Tied (pvs pvcs : List Value) : Prop :=
  ∃ node volume a b, Offers pvs pvcs node volume a ∧ Offers pvs pvcs node volume b ∧ a ≠ b ∧
    rank a node = rank b node ∧ ∀ c, Offers pvs pvcs node volume c → rank c node ≤ rank a node

theorem tied_iff {pvs pvcs : List Value} :
    Tied pvs pvcs ↔ Best.Tied rankAt (pvs.filterMap (entryOf (claimsByName pvcs))) := by
  simp only [Tied, Best.Tied, Offers, Best.mem_under, List.mem_filterMap, rankAt]
  constructor
  · rintro ⟨node, volume, a, b, ha, hb, hne, hr, hle⟩
    exact ⟨(node, volume), a, ha, b, hb, hne, hr, hle⟩
  · rintro ⟨⟨node, volume⟩, a, ha, b, hb, hne, hr, hle⟩
    exact ⟨node, volume, a, b, ha, hb, hne, hr, hle⟩

/-- For claims with names of their own, the order of the lists does not matter
exactly when no volume has two PVs of its best rank. -/
theorem viewOf_perm_iff {pvs pvcs : List Value} (hd : (pvcs.filterMap claimName).Nodup) :
    (∀ pvs' pvcs', pvs'.Perm pvs → pvcs'.Perm pvcs → viewOf pvs' pvcs' = viewOf pvs pvcs) ↔ ¬ Tied pvs pvcs := by
  rw [tied_iff, ← Best.of_perm_iff Key.cmp]
  constructor
  · intro h pvs' hp
    rw [← viewOf_eq, ← viewOf_eq]
    exact h pvs' pvcs hp (List.Perm.refl _)
  · intro h pvs' pvcs' hp hc
    rw [viewOf_eq, viewOf_eq, claimsByName_perm hd hc]
    exact h pvs' hp

/-- Two claims of one name in two namespaces. -/
theorem viewOf_perm_iff_claims :
    let claim (ns : String) : Value :=
      .object [("metadata", .object [("namespace", .string ns), ("name", .string "a")])]
    let pv : Value := .object [("metadata", .object [("name", .string "p")])]
    (∀ pvs' pvcs', pvs'.Perm [pv] → pvcs'.Perm [claim "x", claim "y"] →
      viewOf pvs' pvcs' = viewOf [pv] [claim "x", claim "y"]) ↔ ¬ Tied [pv] [claim "x", claim "y"] :=
  viewOf_perm_iff (by decide)

/-- A PV of the volume `data-n1` of the node `n1`, whose claim is gone. -/
def released (name : String) : Value :=
  .object [
    ("metadata", .object [
      ("name", .string name),
      ("annotations", .object [("storm.io/node", .string "n1"), ("storm.io/volume", .string "data-n1")])]),
    ("spec", .object [
      ("claimRef", .object [("namespace", .string "kube-system"), ("name", .string name)]),
      ("csi", .object [("driver", .string DRIVER), ("volumeHandle", .string "data-n1")])]),
    ("status", .object [("phase", .string "Released")])]

def releasedClaim (name : String) : VolumeClaim where
  pv := name
  phase := "Released"
  reclaim := ""
  capacity := ""
  volumeKind := none
  component := none
  claim := some { «namespace» := "kube-system", name := name, uid := none, phase := none, bound := false }

theorem entryOf_released {name : String} (h : name ≠ "") :
    entryOf (claimsByName []) (released name) = some (("n1", "data-n1"), releasedClaim name) := by
  have hclaims (k : Key) : (claimsByName [])[k]? = none := Std.ExtTreeMap.getElem?_empty
  simp [entryOf, released, releasedClaim, claimRef, Value.field, Value.text, Value.asStr, Option.filter_some,
    hclaims, h]

/-- Both PVs end with the node's name and no claim is there, so the first one
listed is shown: the volume's old PV, or its node-qualified one. -/
theorem viewOf_first (name other : String) (h : name ≠ "") (ho : other ≠ "")
    (hr : rank (releasedClaim other) "n1" ≤ rank (releasedClaim name) "n1") :
    (viewOf [released name, released other] [])[(("n1", "data-n1") : Key)]? = some (releasedClaim name) := by
  rw [viewOf_eq]
  refine Best.get_of_cons (entryOf_released h) fun b hb => ?_
  obtain ⟨pv, hpv, he⟩ := List.mem_filterMap.mp (Best.mem_under.mp hb)
  obtain rfl := List.mem_singleton.mp hpv
  rw [entryOf_released ho] at he
  cases he
  exact hr

/-- `storm-data-n1` is the old name of the PV of `data-n1`, and reads as one
that names the node `n1`. -/
theorem viewOf_depends_on_order :
    ¬ ∀ pvs pvcs : List Value, (pvs.filterMap fun pv => ((pv.field "metadata").field "name").text).Nodup →
      (pvcs.filterMap claimName).Nodup → ∀ pvs' pvcs', pvs'.Perm pvs → pvcs'.Perm pvcs →
        viewOf pvs' pvcs' = viewOf pvs pvcs := by
  intro h
  have he := h [released "storm-data-n1", released "storm-data-n1-n1"] [] (by decide) (by decide)
    [released "storm-data-n1-n1", released "storm-data-n1"] [] (List.Perm.swap ..) (List.Perm.refl _)
  have ho := viewOf_first "storm-data-n1" "storm-data-n1-n1" (by decide) (by decide) (by decide)
  rw [← he, viewOf_first _ _ (by decide) (by decide) (by decide)] at ho
  exact absurd (congrArg VolumeClaim.pv (Option.some.inj ho)) (by decide)

end StormStorage.Kube
