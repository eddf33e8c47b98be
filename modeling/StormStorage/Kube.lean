import StormStorage.Best
import StormStorage.KeyMap
import Mathlib.Data.Bool.Basic
import Mathlib.Data.Prod.Lex

/-!
# The PV and PVC of each node volume

`viewOf` joins a list of persistent volumes and one of claims, as an
apiserver lists them, into the view that node inventories show: one PV for
each (node, volume), with the claim it names.
-/

namespace StormStorage.Kube

/-! ## JSON -/

/-- A JSON value; a number is kept as its text. -/
inductive Value where
  | null
  | bool (b : Bool)
  | number (text : String)
  | string (s : String)
  | array (items : List Value)
  | object (fields : List (String × Value))

namespace Value

/-- `v["k"]`: null where there is no such field. -/
def field (k : String) : Value → Value
  | object fields => ((fields.find? (·.1 = k)).map Prod.snd).getD null
  | _ => null

/-- `v[0]`. -/
def first : Value → Value
  | array (v :: _) => v
  | _ => null

def asStr : Value → Option String
  | string s => some s
  | _ => none

def asArray : Value → Option (List Value)
  | array items => some items
  | _ => none

/-- A text that is not empty. -/
def text (v : Value) : Option String := v.asStr.filter (· ≠ "")

end Value

/-! ## The view -/

/-- The CSI driver of a stormblock PV. -/
def DRIVER : String := "stormblock.storm.io"

structure ClaimRef where
  «namespace» : String
  name : String
  uid : Option String
  /-- The claim's own phase, where the claim exists. -/
  phase : Option String
  /-- The pair names each other. -/
  bound : Bool
deriving DecidableEq, Repr

/-- A node volume's PV, and the claim bound to it. -/
structure VolumeClaim where
  pv : String
  phase : String
  reclaim : String
  capacity : String
  volumeKind : Option String
  component : Option String
  claim : Option ClaimRef
deriving DecidableEq, Repr

/-- A PV and its claim, together and naming each other. -/
def VolumeClaim.complete (vc : VolumeClaim) : Bool := vc.phase = "Bound" && vc.claim.any (·.bound)

abbrev Key := String × String

/-- Keys in the order of an ordered map of pairs. -/
def Key.cmp : Key → Key → Ordering := compareLex (compareOn Prod.fst) (compareOn Prod.snd)

instance : Std.TransCmp Key.cmp :=
  inferInstanceAs (Std.TransCmp (compareLex (compareOn Prod.fst) (compareOn Prod.snd)))

instance : Std.LawfulEqCmp Key.cmp where
  eq_of_compare {a b} h := by
    obtain ⟨h1, h2⟩ := compareLex_eq_eq.mp h
    exact Prod.ext (Std.LawfulEqCmp.eq_of_compare h1) (Std.LawfulEqCmp.eq_of_compare h2)

abbrev View := Std.ExtTreeMap Key VolumeClaim Key.cmp

/-- Namespace and name of a claim. -/
def claimName (c : Value) : Option Key :=
  ((c.field "metadata").field "name").text.map fun name =>
    ((((c.field "metadata").field "namespace").text).getD "", name)

def claimsByName (pvcs : List Value) : Std.ExtTreeMap Key Value Key.cmp :=
  .ofList (pvcs.filterMap fun c => (claimName c).map fun k => (k, c)) Key.cmp

/-- The hostname a PV's `nodeAffinity` pins it to. -/
def affinityNode (spec : Value) : Option String := do
  let terms ← (((spec.field "nodeAffinity").field "required").field "nodeSelectorTerms").asArray
  let exprs := terms.flatMap fun t => ((t.field "matchExpressions").asArray).getD []
  let e ← exprs.find? fun e =>
    (e.field "key").asStr = some "kubernetes.io/hostname" ∧ (e.field "operator").asStr = some "In"
  (e.field "values").first.asStr

/-- The claim that a PV's `claimRef` names. -/
def claimRef (claims : Std.ExtTreeMap Key Value Key.cmp) (spec : Value) (pvName : String) : Option ClaimRef :=
  ((spec.field "claimRef").field "name").text.map fun cname =>
    let ns := ((spec.field "claimRef").field "namespace").asStr.getD ""
    let uid := ((spec.field "claimRef").field "uid").text
    let pvc := claims[(ns, cname)]?
    { «namespace» := ns
      name := cname
      uid := uid
      phase := pvc.bind fun c => ((c.field "status").field "phase").text
      bound := pvc.any fun c =>
        ((c.field "spec").field "volumeName").asStr = some pvName &&
          (uid.isNone || ((c.field "metadata").field "uid").text = uid) }

/-- The PV's place in the view: `none` for a PV that is not a node volume's. -/
def entryOf (claims : Std.ExtTreeMap Key Value Key.cmp) (pv : Value) : Option (Key × VolumeClaim) := do
  let spec := pv.field "spec"
  guard (((spec.field "csi").field "driver").asStr = some DRIVER)
  let metadata := pv.field "metadata"
  let name ← (metadata.field "name").text
  let ann := metadata.field "annotations"
  let volume ← (ann.field "storm.io/volume").text <|> ((spec.field "csi").field "volumeHandle").text
  let node ← (ann.field "storm.io/node").text <|> affinityNode spec
  let labels := metadata.field "labels"
  return ((node, volume),
    { pv := name
      phase := ((pv.field "status").field "phase").text.getD ""
      reclaim := (spec.field "persistentVolumeReclaimPolicy").text.getD ""
      capacity := ((spec.field "capacity").field "storage").text.getD ""
      volumeKind := (labels.field "storm.io/volume-kind").text
      component := (labels.field "storm.io/component").text
      claim := claimRef claims spec name })

def rank (vc : VolumeClaim) (node : String) : Bool ×ₗ Bool :=
  toLex (vc.complete, decide (("-" ++ node).toList <:+ vc.pv.toList))

/-- One round of the loop over the PVs. -/
def viewStep (claims : Std.ExtTreeMap Key Value Key.cmp) (out : View) (pv : Value) : View :=
  match entryOf claims pv with
  | none => out
  | some (key, vc) =>
    -- two PVs for one volume: the complete pair wins, then the node-qualified name
    let better :=
      match out[key]? with
      | none => true
      | some old => decide (rank old key.1 < rank vc key.1)
    if better then out.insert key vc else out

/-- The view of a PV list and a PVC list. -/
def viewOf (pvs pvcs : List Value) : View := pvs.foldl (viewStep (claimsByName pvcs)) ∅

end StormStorage.Kube
