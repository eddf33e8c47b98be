import StormStorage.Credentials
import StormStorage.Url

/-!
# Addresses

The host that an engine's client reads from its URL, for a leg's drive that
has none of its own, and the request that names a drive by its URI.
-/

namespace StormStorage.Engine

open Url

/-- As often as the text begins so; `fuel` bounds how often it can. -/
def trimStartMatches (start : List Char) : Nat → List Char → List Char
  | 0, s => s
  | fuel + 1, s => if start <+: s then trimStartMatches start fuel (s.drop start.length) else s

/-- `trim_start_matches` -/
def trimStart (start s : List Char) : List Char := trimStartMatches start s.length s

/-- The host portion of the engine URL. -/
def host (e : Engine) : String :=
  String.ofList <| (trimStart "https://".toList (trimStart "http://".toList e.url.toList)).takeWhile
    fun c => c ≠ ':' ∧ c ≠ '/'

/-- The transport address of an attach: the engine's own host for a wildcard
one. -/
def transportAddress (e : Engine) (traddr : String) : String :=
  if traddr = "" ∨ traddr = "0.0.0.0" ∨ traddr = "::" then e.host else traddr

/-- The request that closes a drive. -/
def deleteDriveUrl (e : Engine) (idOrPath : String) (force : Bool) : String :=
  let enc := String.ofList (replaceChar '/' "%2F".toList (replaceChar '%' "%25".toList idOrPath.toList))
  let q := if force then "?force=true" else ""
  e.url ++ "/api/v1/drives/" ++ enc ++ q

end StormStorage.Engine
