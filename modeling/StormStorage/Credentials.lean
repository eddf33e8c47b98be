import Mathlib.Data.List.DropRight
import Mathlib.Data.List.Destutter
import StormStorage.Model

/-!
# What engines are presented with

The tokens of the configuration and of the machine, the client of one engine
and the bearers of its requests, and which credentials a node's client is
given (`config.rs`, `engine.rs`, `AppState::engine_for`).
-/

namespace StormStorage

/-! ## Texts -/

/-- The `White_Space` characters of Unicode. -/
def whiteSpace (c : Char) : Bool :=
  let n := c.toNat
  (9 ≤ n ∧ n ≤ 13) ∨ n ∈ [0x20, 0x85, 0xA0, 0x1680, 0x2028, 0x2029, 0x202F, 0x205F, 0x3000] ∨ (0x2000 ≤ n ∧ n ≤ 0x200A)

/-- `str::trim` -/
def trimText (s : String) : String := String.ofList ((s.toList.dropWhile whiteSpace).rdropWhile whiteSpace)

/-- A text that `trim` leaves nothing of. -/
def blank (s : String) : Bool := s.toList.all whiteSpace

/-- `trim_end_matches('/')` -/
def trimSlashes (s : String) : String := String.ofList (s.toList.rdropWhile (· = '/'))

/-- What stands before and after the first `sep`. -/
def cut (sep : List Char) : List Char → Option (List Char × List Char)
  | [] => none
  | c :: cs =>
    if sep.isPrefixOf (c :: cs) then some ([], (c :: cs).drop sep.length)
    else (cut sep cs).map fun p => (c :: p.1, p.2)

/-- An engine's URL from what it announces: a bare address takes `scheme`, a
full URL keeps its own. -/
def engineUrlFrom (nodeAddr scheme : String) : String :=
  if (cut "://".toList nodeAddr.toList).isSome then trimSlashes nodeAddr
  else if nodeAddr.toList.contains ':' then s!"{scheme}://{nodeAddr}"
  else s!"{scheme}://{nodeAddr}:9090"

/-- The host part of an engine URL, without port or brackets. -/
def urlHost (url : String) : String :=
  let rest := match cut "://".toList url.toList with
    | none => url.toList
    | some (_, r) => match cut "://".toList r with
      | some (r, _) => r
      | none => r
  let hostport := rest.takeWhile fun c => c ≠ '/' ∧ c ≠ '?'
  String.ofList <| match hostport with
    | '[' :: v6 => v6.takeWhile (· ≠ ']')
    | _ => match cut [':'] hostport.reverse with
      | some (p, h) => if p.all Char.isDigit then h.reverse else hostport
      | none => hostport

/-- `eq_ignore_ascii_case` -/
def sameIgnoringCase (a b : String) : Bool := a.toList.map Char.toLower = b.toList.map Char.toLower

/-- A name before its first dot. -/
def shortName (s : String) : String := String.ofList (s.toList.takeWhile (· ≠ '.'))

/-- Do a node's name here and a Kubernetes node name name the same machine? -/
def sameNode (a b : String) : Bool := sameIgnoringCase a b || sameIgnoringCase (shortName a) (shortName b)

/-! ## The machine -/

/-- What the process reads of the machine it runs on. -/
structure Machine where
  env : String → Option String
  /-- A file's text, or why it cannot be read. -/
  readFile : String → Except String String
  /-- Of a host that is an IP address: it is loopback, or a socket binds to it. -/
  holdsIp : String → Option Bool

namespace Machine

variable (m : Machine)

/-- A variable that is set to something. -/
def envSet (k : String) : Option String := (m.env k).filter fun v => !blank v

/-- The first readable file that says something, or why there is none. -/
def searchFiles : List String → List String → Option String × String
  | [], why => (none, "no token: " ++ "; ".intercalate why)
  | path :: paths, why =>
    match m.readFile path with
    | .ok s => if blank s then searchFiles paths (why ++ [s!"{path} is empty"]) else (some (trimText s), path)
    | .error e => searchFiles paths (why ++ [s!"{path}: {e}"])

def tokenSearch (envToken : Option String) (files : List String) : Option String × String :=
  match envToken with
  | some t => (some (trimText t), "$STORMBLOCK_API_TOKEN")
  | none => m.searchFiles files []

/-- Whether the engine at `url` runs on this machine. -/
def isThisMachine (url : String) : Bool :=
  let host := urlHost url
  if host = "" ∨ host = "localhost" then true
  else match m.holdsIp host with
    | some held => held
    | none =>
      let me := match m.readFile "/proc/sys/kernel/hostname" with
        | .ok s => s
        | .error _ => (m.readFile "/etc/hostname").toOption.getD ""
      let me := trimText me
      me ≠ "" ∧ (sameIgnoringCase host me ∨ (¬ host.toList.contains '.' ∧ sameIgnoringCase host (shortName me)))

/-- This machine's hostname. -/
def hostname : Option String :=
  (((m.readFile "/proc/sys/kernel/hostname").toOption.or (m.env "HOSTNAME")).map trimText).filter (· ≠ "")

end Machine

/-! ## The configuration -/

def defaultTokenFiles : List String :=
  ["/etc/stormblock/api_token", "/var/lib/stormblock/api_token", "/run/stormblock/engine/api_token"]

/-- The token files to try, in order. -/
def tokenFiles (config env : Option String) : List String :=
  ((config.toList ++ env.toList).map trimText ++ defaultTokenFiles).destutter (· ≠ ·)

/-- Adopting the engine on this machine. -/
structure LocalConfig where
  enabled : Bool := true
  engineUrl : String := "http://127.0.0.1:9090"
  name : Option String := none
  clusterPeers : Bool := true
  tokenFile : Option String := none
  /-- The cluster's shared engine token, presented to every engine. -/
  sharedTokenFile : Option String := none
  /-- The engine's admin token, presented to an engine on this machine. -/
  adminTokenFile : Option String := none
  tier : Option String := none

namespace LocalConfig

variable (c : LocalConfig) (m : Machine)

/-- The token to present to the engine at `url`, and where it came from: the
shared one for any engine, the minted one for this machine's. -/
def tokenFor (url : String) : Option String × String :=
  let shared := m.tokenSearch (m.envSet "STORMBLOCK_API_TOKEN") c.sharedTokenFile.toList
  if shared.1.isSome then shared
  else if !m.isThisMachine url then
    (none, s!"no shared token for an engine on another machine ({shared.2}) — a minted token means nothing " ++
      "to a peer: set $STORMBLOCK_API_TOKEN or [local] shared_token_file to the cluster's " ++
      "api_token, or the node's api_token/token_file")
  else m.tokenSearch none (tokenFiles c.tokenFile (m.envSet "STORMBLOCK_TOKEN_FILE"))

/-- The admin token for the engine at `url`. -/
def adminTokenFor (url : String) : Option String :=
  match m.envSet "STORMBLOCK_ADMIN_TOKEN" with
  | some t => some (trimText t)
  | none =>
    match c.adminTokenFile with
    | none => none
    | some file => if m.isThisMachine url then (m.tokenSearch none [file]).1 else none

end LocalConfig

def defaultKubeTokenFiles : List String :=
  ["/data/stormcert/node-admin.token", "/var/run/secrets/kubernetes.io/serviceaccount/token"]

structure KubeConfig where
  tokenFile : Option String := none

/-- The `[kubernetes]` bearer. -/
def KubeConfig.token (c : KubeConfig) (m : Machine) : Option String :=
  match m.envSet "KUBE_TOKEN" with
  | some t => some (trimText t)
  | none => (m.tokenSearch none ((c.tokenFile.toList.map trimText ++ defaultKubeTokenFiles).destutter (· ≠ ·))).1

/-- What the configuration says of nodes and their engines. -/
structure NodesConfig where
  nodes : List NodeConfig := []
  «local» : LocalConfig := {}
  kubernetes : KubeConfig := {}
  /-- The scheme for an engine known only by its address. -/
  addressScheme : String := "http"

/-- The cluster members, as last read. -/
structure Members where
  /-- The URLs of the other members' engines. -/
  engines : List String := []
  /-- The name of the member on this machine. -/
  localName : Option String := none
deriving DecidableEq

/-! ## The client of an engine -/

structure Engine where
  url : String
  token : Option String
  admin : Option String
deriving DecidableEq, Repr

namespace Engine

def «new» (url : String) (token : Option String) : Engine where
  url := trimSlashes url
  token := token
  admin := none

def withAdmin (e : Engine) (admin : Option String) : Engine := { e with admin := admin.filter fun t => !blank t }

/-- The bearer of a request that carries this token. -/
def bearer (t : Option String) : Option String := t.filter (· ≠ "")

/-- The bearer of a read or a write. -/
def req (e : Engine) : Option String := bearer e.token

def adminReq (e : Engine) : Option String := bearer (e.admin.or e.token)

/-- The bearers that a destructive verb is sent with, one after another;
`refused`: the engine refuses the first. -/
def adminSend (e : Engine) (refused : Bool) : List (Option String) :=
  e.adminReq :: if refused && e.admin.isSome && e.admin ≠ e.token then [e.req] else []

end Engine

/-! ## The credentials of a node's engine -/

section

variable (cfg : NodesConfig) (m : Machine) (members : Members)

def engineTokenSource (node : NodeConfig) : Option String × String :=
  match (node.apiToken.map trimText).filter (· ≠ "") with
  | some t => (some t, s!"{node.name}: api_token")
  | none =>
    let found := match node.tokenFile with
      | some f => m.tokenSearch none [f]
      | none => (none, "")
    if found.1.isSome then found
    else
      let found := cfg.local.tokenFor m node.engineUrl
      if found.1.isSome then found
      else if trimSlashes node.engineUrl ∈ members.engines then
        match cfg.kubernetes.token m with
        | some t => (some t, s!"{node.name}: [kubernetes] bearer (cluster member)")
        | none => found
      else found

def engineToken (node : NodeConfig) : Option String := (engineTokenSource cfg m members node).1

/-- What to present for the engine's destructive verbs. -/
def adminCredential (engineUrl : String) : Option String :=
  (cfg.local.adminTokenFor m engineUrl).or (cfg.kubernetes.token m)

def engineFor (node : Node) : Engine :=
  (Engine.new node.config.engineUrl (engineToken cfg m members node.config)).withAdmin
    (adminCredential cfg m node.config.engineUrl)

end

end StormStorage
