import StormStorage.Chunks
import StormStorage.Etcd
import StormStorage.Url

/-!
# What the etcd gateway is sent

The gateway speaks JSON: keys and values go as base64, and a range read names
the first key and the end of the range.

* `b64`, `unb64`: base64 as bytes are written and read;
* `prefixEnd`: the end of the range of the keys that start with a prefix.
-/

namespace StormStorage

open Url (utf8)

/-! ## Base64 -/

def B64 : List UInt8 := utf8 "ABCDEFGHIJKLMNOPQRSTUVWXYZabcdefghijklmnopqrstuvwxyz0123456789+/".toList

/-- The bytes of a chunk in 24 bits, first byte first. -/
def packed (chunk : List UInt8) : UInt32 :=
  chunk.zipIdx.foldl (fun acc (b, i) => acc ||| (b.toUInt32 <<< (16 - 8 * i).toUInt32)) 0

def sextet (n : UInt32) (i : Nat) : Nat := ((n >>> (18 - 6 * i).toUInt32) &&& 63).toNat

theorem sextet_lt (n : UInt32) (i : Nat) : sextet n i < B64.length := by
  have h : sextet n i ≤ 63 := by
    simp only [sextet, UInt32.toNat_and]
    exact Nat.and_le_right
  exact Nat.lt_of_le_of_lt h (by decide)

def b64Char (chunk : List UInt8) (i : Nat) : Char :=
  if i ≤ chunk.length then .ofUInt8 (B64.get ⟨sextet (packed chunk) i, sextet_lt ..⟩) else '='

def b64Chunk (chunk : List UInt8) : List Char := (List.range 4).map (b64Char chunk)

/-- Standard base64 with padding. -/
def b64 (data : List UInt8) : String := String.ofList ((chunks 3 data).flatMap b64Chunk)

def isAsciiWhitespace (c : UInt8) : Bool := c ∈ [9, 10, 12, 13, 32]

def b64Value (c : UInt8) : Option UInt8 :=
  if 'A'.toUInt8 ≤ c ∧ c ≤ 'Z'.toUInt8 then some (c - 'A'.toUInt8)
  else if 'a'.toUInt8 ≤ c ∧ c ≤ 'z'.toUInt8 then some (c - 'a'.toUInt8 + 26)
  else if '0'.toUInt8 ≤ c ∧ c ≤ '9'.toUInt8 then some (c - '0'.toUInt8 + 52)
  else if c = '+'.toUInt8 ∨ c = '-'.toUInt8 then some 62
  else if c = '/'.toUInt8 ∨ c = '_'.toUInt8 then some 63
  else none

/-- The state of `unb64`: `acc` holds the bits not yet written out. -/
structure Unb64 where
  out : List UInt8
  acc : UInt32
  bits : UInt32
deriving DecidableEq, Repr

def Unb64.init : Unb64 := { out := [], acc := 0, bits := 0 }

def Unb64.push (d : Unb64) (v : UInt8) : Unb64 :=
  let acc := (d.acc <<< 6) ||| v.toUInt32
  let bits := d.bits + 6
  if 8 ≤ bits then
    let bits := bits - 8
    { out := d.out ++ [(acc >>> bits).toUInt8], acc := acc &&& ((1 <<< bits) - 1), bits }
  else
    { d with acc := acc, bits := bits }

def Unb64.step (s : String) (d : Unb64) (c : UInt8) : Except String Unb64 :=
  match b64Value c with
  | some v => .ok (d.push v)
  | none => .error s!"not base64: {repr s}"

/-- The bytes that `unb64` looks at. -/
def b64Bytes (s : String) : List UInt8 :=
  (utf8 s.toList).filter fun c => !isAsciiWhitespace c && c != '='.toUInt8

def unb64 (s : String) : Except String (List UInt8) :=
  (·.out) <$> (b64Bytes s).foldlM (Unb64.step s) .init

/-! ## Ranges -/

/-- The end of `prefixEnd`, from the bytes still there, last first. -/
def prefixEndLoop : List UInt8 → List UInt8
  | last :: rest => if last < 0xff then ((last + 1) :: rest).reverse else prefixEndLoop rest
  | [] => [0]

/-- The end of the range of the keys that start with these bytes. -/
def prefixEnd (pre : List UInt8) : List UInt8 := prefixEndLoop pre.reverse

/-- The body of a range request. -/
structure RangeRequest where
  key : String
  rangeEnd : String
deriving DecidableEq, Repr

def rangePrefix (pre : String) : RangeRequest where
  key := b64 (utf8 pre.toList)
  rangeEnd := b64 (prefixEnd (utf8 pre.toList))

end StormStorage
