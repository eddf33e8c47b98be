import StormStorage.Credentials
import StormStorage.Template

/-!
# How a head names itself to its legs

Each head presents a host NQN of its own, made of a template in the
configuration (`LegsConfig` in `config.rs`). Every leg is attached for that name
alone, and the head's drive URI carries it (`AttachedLeg::drive_uri`).
-/

namespace StormStorage

structure LegsConfig where
  /-- `{node}` is the head's node name. -/
  hostNqn : String := "nqn.2026-10.lo.storm:stormstorage:\x7bnode\x7d"
deriving DecidableEq, Repr

namespace LegsConfig

def NODE : List Char := "\x7bnode\x7d".toList

variable (c : LegsConfig)

/-- The host NQN of head `node`. -/
def hostNqnFor (node : String) : String := String.ofList (Template.replaceAll NODE node.toList c.hostNqn.toList)

/-- What would break the drive URI that the name rides in. -/
def unfit (c : Char) : Bool := c = '&' ∨ c = '?' ∨ c = '/' ∨ c = '#' ∨ whiteSpace c

def validate : Except String Unit :=
  let n := c.hostNqnFor "x"
  if ¬ "nqn.".toList <+: n.toList ∨ 200 < c.hostNqn.utf8ByteSize then
    .error s!"legs.host_nqn {repr c.hostNqn}: must start with nqn. and be short (≤ 200)"
  else if ¬ NODE <:+: c.hostNqn.toList then
    .error s!"legs.host_nqn {repr c.hostNqn}: needs \x7bnode\x7d, so each head has its own"
  else if n.toList.any unfit then
    .error s!"legs.host_nqn {repr c.hostNqn}: no & ? / # or spaces (it goes into a drive URI)"
  else .ok ()

end LegsConfig

end StormStorage
