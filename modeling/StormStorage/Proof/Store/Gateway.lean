import Mathlib.Algebra.GroupWithZero.Nat
import StormStorage.Lex
import StormStorage.Store.Gateway
import Mathlib.Data.List.Infix

/-!
# The gateway reads back what was sent

* `b64_reads_back`: base64 comes back as the bytes it was written from, and
  the decoder loses no bit of what it accepts;
* `inRange_prefixEnd`, `rangePrefix_asks`: a range read of a prefix gives the
  keys that start with it, no others.
-/

namespace StormStorage

open Url (utf8)

/-! ## The decoder -/

namespace Unb64

/-- What `unb64` has written out, and the `n` bits it still holds. -/
def holding (out : List UInt8) (a n : Nat) : Unb64 := { out := out, acc := .ofNat a, bits := .ofNat n }

/-- Fewer than eight bits are held, none of them lost. -/
structure Fits (d : Unb64) : Prop where
  bits : d.bits.toNat < 8
  acc : d.acc.toNat < 2 ^ d.bits.toNat

theorem holding_self (d : Unb64) : holding d.out d.acc.toNat d.bits.toNat = d := by
  simp [holding]

theorem toNat_or_digit {acc : UInt32} {v : UInt8} (ha : acc.toNat < 2 ^ 8) (hv : v.toNat < 64) :
    ((acc <<< 6) ||| v.toUInt32).toNat = acc.toNat * 64 + v.toNat := by
  have h := Nat.shiftLeft_add_eq_or_of_lt (i := 6) hv acc.toNat
  rw [Nat.shiftLeft_eq] at h
  simp only [UInt32.toNat_or, UInt32.toNat_shiftLeft, UInt8.toNat_toUInt32]
  rw [show (6 : UInt32).toNat % 32 = 6 from rfl, Nat.shiftLeft_eq,
    Nat.mod_eq_of_lt (show acc.toNat * 2 ^ 6 < 2 ^ 32 by omega)]
  exact h.symm

theorem toNat_mask {n : Nat} (hn : n < 8) {acc : UInt32} :
    (acc &&& ((1 <<< UInt32.ofNat n) - 1)).toNat = acc.toNat % 2 ^ n := by
  have h : ∀ n < 8, ((1 <<< UInt32.ofNat n) - 1 : UInt32).toNat = 2 ^ n - 1 := by decide
  rw [UInt32.toNat_and, h n hn, Nat.and_two_pow_sub_one_eq_mod]

theorem toNat_lt_two_pow {a n : Nat} (hn : n < 8) (ha : a < 2 ^ n) : a < 2 ^ 8 :=
  Nat.lt_of_lt_of_le ha (Nat.pow_le_pow_right (by decide) (Nat.le_of_lt hn))

theorem digit_eq {a n : Nat} (hn : n < 8) (ha : a < 2 ^ n) {v : UInt8} (hv : v.toNat < 64) :
    (UInt32.ofNat a <<< 6) ||| v.toUInt32 = .ofNat (a * 64 + v.toNat) := by
  have ha := toNat_lt_two_pow hn ha
  have h : (UInt32.ofNat a).toNat = a := UInt32.toNat_ofNat_of_lt' (show a < 2 ^ 32 by omega)
  apply UInt32.toNat_inj.mp
  rw [toNat_or_digit (by omega) hv, h, UInt32.toNat_ofNat_of_lt' (show a * 64 + v.toNat < 2 ^ 32 by omega)]

theorem le_bits_iff {n : Nat} (hn : n < 8) : 8 ≤ UInt32.ofNat n + 6 ↔ 2 ≤ n := by
  have h : ∀ n < 8, (8 ≤ UInt32.ofNat n + 6 ↔ 2 ≤ n) := by decide
  exact h n hn

/-- A digit that gives no whole byte is held with the bits before it. -/
theorem push_holding_lt {out : List UInt8} {a n : Nat} {v : UInt8} (hn : n < 2) (ha : a < 2 ^ n) (hv : v.toNat < 64) :
    (holding out a n).push v = holding out (a * 64 + v.toNat) (n + 6) := by
  have h8 : n < 8 := by omega
  have h : ¬ 8 ≤ UInt32.ofNat n + 6 := fun h => by
    have := (le_bits_iff h8).mp h
    omega
  simp only [push, holding, digit_eq h8 ha hv, if_neg h, UInt32.ofNat_add]
  rfl

/-- A digit that gives a byte leaves the bits below it. -/
theorem push_holding_le {out : List UInt8} {a n : Nat} {v : UInt8} (hn : n < 8) (h2 : 2 ≤ n) (ha : a < 2 ^ n)
    (hv : v.toNat < 64) :
    (holding out a n).push v =
      holding (out ++ [.ofNat ((a * 64 + v.toNat) / 2 ^ (n - 2))]) ((a * 64 + v.toNat) % 2 ^ (n - 2)) (n - 2) := by
  have hb : UInt32.ofNat n + 6 - 8 = .ofNat (n - 2) := by
    have h : ∀ n < 8, 2 ≤ n → UInt32.ofNat n + 6 - 8 = .ofNat (n - 2) := by decide
    exact h n hn h2
  have hlt : a * 64 + v.toNat < 2 ^ 32 := by
    have := toNat_lt_two_pow hn ha
    omega
  have hw := UInt32.toNat_ofNat_of_lt' hlt
  have hs : (UInt32.ofNat (n - 2)).toNat % 32 = n - 2 := by
    rw [UInt32.toNat_ofNat_of_lt' (show n - 2 < 2 ^ 32 by omega)]
    exact Nat.mod_eq_of_lt (by omega)
  simp only [push, holding, digit_eq hn ha hv, if_pos ((le_bits_iff hn).mpr h2), hb]
  congr 1
  · congr 2
    apply UInt8.toNat_inj.mp
    rw [UInt32.toNat_toUInt8, UInt32.toNat_shiftRight, hs, hw, Nat.shiftRight_eq_div_pow, UInt8.toNat_ofNat']
  · apply UInt32.toNat_inj.mp
    rw [toNat_mask (show n - 2 < 8 by omega), hw,
      UInt32.toNat_ofNat_of_lt' (Nat.lt_of_le_of_lt (Nat.mod_le ..) hlt)]

theorem push_holding_byte {out : List UInt8} {a r m : Nat} {v b : UInt8} (hm : m < 6) (ha : a < 2 ^ (m + 2))
    (hv : v.toNat < 64) (h : a * 64 + v.toNat = b.toNat * 2 ^ m + r) (hr : r < 2 ^ m) :
    (holding out a (m + 2)).push v = holding (out ++ [b]) r m := by
  rw [push_holding_le (by omega) (by omega) ha hv, Nat.add_sub_cancel, h, Nat.mul_comm,
    Nat.mul_add_div (Nat.two_pow_pos m), Nat.mul_add_mod, Nat.mod_eq_of_lt hr, Nat.div_eq_of_lt hr, Nat.add_zero,
    UInt8.ofNat_toNat]

theorem Fits.holding {out : List UInt8} {a n : Nat} (hn : n < 8) (ha : a < 2 ^ n) : (holding out a n).Fits := by
  have hb : (UInt32.ofNat n).toNat = n := UInt32.toNat_ofNat_of_lt' (show n < 2 ^ 32 by omega)
  have ha8 := toNat_lt_two_pow hn ha
  have hv : (UInt32.ofNat a).toNat = a := UInt32.toNat_ofNat_of_lt' (show a < 2 ^ 32 by omega)
  constructor
  · exact hb.symm ▸ hn
  · show (UInt32.ofNat a).toNat < 2 ^ (UInt32.ofNat n).toNat
    rw [hb, hv]
    exact ha

theorem Fits.init : Fits .init := by
  show (Unb64.holding [] 0 0).Fits
  exact Fits.holding (by decide) (by decide)

theorem Fits.push {d : Unb64} (h : d.Fits) {v : UInt8} (hv : v.toNat < 64) : (d.push v).Fits := by
  rw [← holding_self d]
  by_cases hn : d.bits.toNat < 2
  · rw [push_holding_lt hn h.acc hv]
    refine Fits.holding (by omega) ?_
    have := h.acc
    rw [Nat.pow_add]
    omega
  · rw [push_holding_le h.bits (by omega) h.acc hv]
    exact Fits.holding (by have := h.bits; omega) (Nat.mod_lt _ (Nat.two_pow_pos _))

end Unb64

theorem b64Value_lt {c v : UInt8} (h : b64Value c = some v) : v.toNat < 64 := by
  have hall : ∀ n < 256, ((b64Value (.ofNat n)).all fun v => v.toNat < 64) = true := by decide +kernel
  have hc := hall c.toNat c.toNat_lt
  rw [UInt8.ofNat_toNat, h] at hc
  simpa using hc

namespace Unb64

variable {s : String}

theorem step_ok_iff {d d' : Unb64} {c : UInt8} :
    d.step s c = .ok d' ↔ ∃ v, b64Value c = some v ∧ d' = d.push v := by
  unfold step
  cases hv : b64Value c <;> simp [eq_comm]

/-- Whatever has been read, the bits held fit. -/
theorem Fits.foldlM {bs : List UInt8} {d d' : Unb64} (hd : d.Fits) (h : bs.foldlM (Unb64.step s) d = .ok d') :
    d'.Fits := by
  induction bs generalizing d with
  | nil =>
    cases h
    exact hd
  | cons c bs ih =>
    rw [List.foldlM_cons] at h
    cases hs : d.step s c with
    | error e => simp [hs, bind, Except.bind] at h
    | ok d1 =>
      obtain ⟨v, hv, rfl⟩ := step_ok_iff.mp hs
      rw [hs] at h
      exact ih (hd.push (b64Value_lt hv)) h

end Unb64

/-! ## One chunk -/

theorem packed_three (a b c : UInt8) : (packed [a, b, c]).toNat = a.toNat * 65536 + b.toNat * 256 + c.toNat := by
  have ha := a.toNat_lt
  have hb := b.toNat_lt
  have hc := c.toNat_lt
  have h : (packed [a, b, c]).toNat =
      a.toNat <<< 16 % 4294967296 ||| b.toNat <<< 8 % 4294967296 ||| c.toNat := by
    simp [packed, List.zipIdx_cons]
  rw [h, Nat.mod_eq_of_lt (by rw [Nat.shiftLeft_eq]; omega), Nat.mod_eq_of_lt (by rw [Nat.shiftLeft_eq]; omega),
    ← Nat.shiftLeft_add_eq_or_of_lt (by rw [Nat.shiftLeft_eq]; omega : b.toNat <<< 8 < 2 ^ 16),
    show a.toNat <<< 16 + b.toNat <<< 8 = (a.toNat * 256 + b.toNat) <<< 8 by simp only [Nat.shiftLeft_eq]; omega,
    ← Nat.shiftLeft_add_eq_or_of_lt hc, Nat.shiftLeft_eq]
  omega

theorem packed_two (a b : UInt8) : packed [a, b] = packed [a, b, 0] := by simp [packed, List.zipIdx_cons]

theorem packed_one (a : UInt8) : packed [a] = packed [a, 0, 0] := by simp [packed, List.zipIdx_cons]

theorem sextet_eq (n : UInt32) {i : Nat} (hi : i < 4) : sextet n i = n.toNat / 2 ^ (18 - 6 * i) % 64 := by
  have hs : ∀ i < 4, (18 - 6 * i).toUInt32.toNat % 32 = 18 - 6 * i := by decide
  rw [sextet, UInt32.toNat_and, UInt32.toNat_shiftRight, hs i hi, Nat.shiftRight_eq_div_pow]
  exact Nat.and_two_pow_sub_one_eq_mod _ 6

/-- The bytes of a character that `unb64` looks at. -/
def keptOf (c : Char) : List UInt8 :=
  (String.utf8EncodeChar c).filter fun c => !isAsciiWhitespace c && c != '='.toUInt8

theorem keptOf_digit (i : Fin B64.length) : keptOf (.ofUInt8 (B64.get i)) = [B64.get i] := by
  revert i
  decide +kernel

theorem keptOf_pad : keptOf '=' = [] := by decide

theorem b64Value_get (i : Fin B64.length) : b64Value (B64.get i) = some (.ofNat i) := by
  revert i
  decide +kernel

/-- The digits of a chunk, as the decoder reads them. -/
def digitsOf (chunk : List UInt8) : List UInt8 := (b64Chunk chunk).flatMap keptOf

theorem b64Bytes_b64 (data : List UInt8) : b64Bytes (b64 data) = (chunks 3 data).flatMap digitsOf := by
  rw [b64Bytes, b64, String.toList_ofList, utf8, List.flatMap_assoc, List.filter_flatMap]
  congr 1
  funext chunk
  rw [digitsOf, List.filter_flatMap]
  rfl

theorem digit_lt (chunk : List UInt8) (i : Nat) : sextet (packed chunk) i < B64.length := sextet_lt ..

/-- The byte of the table for six bits of a chunk. -/
def digit (chunk : List UInt8) (i : Nat) : UInt8 := B64.get ⟨sextet (packed chunk) i, digit_lt chunk i⟩

theorem keptOf_b64Char (chunk : List UInt8) (i : Nat) :
    keptOf (b64Char chunk i) = if i ≤ chunk.length then [digit chunk i] else [] := by
  unfold b64Char
  split
  · exact keptOf_digit _
  · exact keptOf_pad

theorem digitsOf_eq (chunk : List UInt8) :
    digitsOf chunk = (List.range 4).flatMap fun i => if i ≤ chunk.length then [digit chunk i] else [] := by
  rw [digitsOf, b64Chunk, List.flatMap_map]
  simp only [keptOf_b64Char]

namespace Unb64

variable {s : String} {out : List UInt8} {a b c : UInt8}

theorem step_digit (d : Unb64) (chunk : List UInt8) (i : Nat) :
    d.step s (digit chunk i) = .ok (d.push (.ofNat (sextet (packed chunk) i))) := by
  rw [step, digit, b64Value_get]

theorem toNat_sextet (n : UInt32) {i : Nat} (hi : i < 4) :
    (UInt8.ofNat (sextet n i)).toNat = n.toNat / 2 ^ (18 - 6 * i) % 64 := by
  have h := sextet_eq n hi
  rw [UInt8.toNat_ofNat', h]
  exact Nat.mod_eq_of_lt (by omega)

/-- The first two digits of a chunk give its first byte. -/
theorem push_two {n : UInt32} (hn : n.toNat = a.toNat * 65536 + b.toNat * 256 + c.toNat) :
    ((holding out 0 0).push (.ofNat (sextet n 0))).push (.ofNat (sextet n 1)) =
      holding (out ++ [a]) (b.toNat / 16) 4 := by
  have ha := a.toNat_lt
  have hb := b.toNat_lt
  have hc := c.toNat_lt
  have h0 := toNat_sextet n (i := 0) (by decide)
  have h1 := toNat_sextet n (i := 1) (by decide)
  rw [push_holding_lt (by decide) (by decide) (by omega), Nat.zero_mul, Nat.zero_add]
  exact push_holding_byte (m := 4) (by decide) (by omega) (by omega) (by omega) (by omega)

theorem push_third {n : UInt32} (hn : n.toNat = a.toNat * 65536 + b.toNat * 256 + c.toNat) :
    (holding out (b.toNat / 16) 4).push (.ofNat (sextet n 2)) = holding (out ++ [b]) (c.toNat / 64) 2 := by
  have hb := b.toNat_lt
  have hc := c.toNat_lt
  have h2 := toNat_sextet n (i := 2) (by decide)
  exact push_holding_byte (m := 2) (by decide) (by omega) (by omega) (by omega) (by omega)

theorem push_fourth {n : UInt32} (hn : n.toNat = a.toNat * 65536 + b.toNat * 256 + c.toNat) :
    (holding out (c.toNat / 64) 2).push (.ofNat (sextet n 3)) = holding (out ++ [c]) 0 0 := by
  have hc := c.toNat_lt
  have h3 := toNat_sextet n (i := 3) (by decide)
  exact push_holding_byte (m := 0) (by decide) (by omega) (by omega) (by omega) (by omega)

theorem foldlM_three :
    (digitsOf [a, b, c]).foldlM (Unb64.step s) (holding out 0 0) = .ok (holding (out ++ [a, b, c]) 0 0) := by
  have hn := packed_three a b c
  rw [digitsOf_eq]
  simp only [List.range_succ, List.range_zero]
  simp [step_digit, push_two hn, push_third hn, push_fourth hn, bind, Except.bind, pure, Except.pure]

theorem foldlM_two :
    (digitsOf [a, b]).foldlM (Unb64.step s) (holding out 0 0) = .ok (holding (out ++ [a, b]) 0 2) := by
  have hn := packed_three a b 0
  rw [← packed_two] at hn
  rw [digitsOf_eq]
  simp only [List.range_succ, List.range_zero]
  simp [step_digit, push_two hn, push_third hn, bind, Except.bind, pure, Except.pure]

theorem foldlM_one :
    (digitsOf [a]).foldlM (Unb64.step s) (holding out 0 0) = .ok (holding (out ++ [a]) 0 4) := by
  have hn := packed_three a 0 0
  rw [← packed_one] at hn
  rw [digitsOf_eq]
  simp only [List.range_succ, List.range_zero]
  simp [step_digit, push_two hn, bind, Except.bind, pure, Except.pure]

end Unb64

/-! ## All the chunks -/

/-- Three bytes at a time, and one or two at the end. -/
theorem triples {P : List UInt8 → Prop} (hnil : P []) (hone : ∀ a, P [a]) (htwo : ∀ a b, P [a, b])
    (hthree : ∀ a b c rest, P rest → P (a :: b :: c :: rest)) : ∀ data, P data
  | [] => hnil
  | [a] => hone a
  | [a, b] => htwo a b
  | a :: b :: c :: rest => hthree a b c rest (triples hnil hone htwo hthree rest)

theorem chunks_three (a b c : UInt8) (rest : List UInt8) :
    chunks 3 (a :: b :: c :: rest) = [a, b, c] :: chunks 3 rest := by
  show chunks 3 ([a, b, c] ++ rest) = _
  exact chunks_append (by decide) rfl

theorem foldlM_digits {s : String} (data out : List UInt8) :
    ∃ n, ((chunks 3 data).flatMap digitsOf).foldlM (Unb64.step s) (Unb64.holding out 0 0) =
      .ok (Unb64.holding (out ++ data) 0 n) := by
  induction data using triples generalizing out with
  | hnil => exact ⟨0, by simp [chunks, chunksFrom, pure, Except.pure]⟩
  | hone a =>
    refine ⟨4, ?_⟩
    rw [chunks_of_length_le (show [a].length ≤ 3 by simp), List.flatMap_singleton]
    exact Unb64.foldlM_one
  | htwo a b =>
    refine ⟨2, ?_⟩
    rw [chunks_of_length_le (show [a, b].length ≤ 3 by simp), List.flatMap_singleton]
    exact Unb64.foldlM_two
  | hthree a b c rest ih =>
    obtain ⟨n, hn⟩ := ih (out ++ [a, b, c])
    refine ⟨n, ?_⟩
    rw [chunks_three, List.flatMap_cons, List.foldlM_append, Unb64.foldlM_three]
    simpa [bind, Except.bind] using hn

theorem length_chunks_three (data : List UInt8) : (chunks 3 data).length = (data.length + 2) / 3 := by
  induction data using triples with
  | hnil => rfl
  | hone a => rw [chunks_of_length_le (show [a].length ≤ 3 by simp)]; simp
  | htwo a b => rw [chunks_of_length_le (show [a, b].length ≤ 3 by simp)]; simp
  | hthree a b c rest ih =>
    rw [chunks_three, List.length_cons, ih]
    simp only [List.length_cons]
    omega

theorem length_utf8_b64Chunk (chunk : List UInt8) : (utf8 (b64Chunk chunk)).length = 4 := by
  have hd : ∀ i : Fin B64.length, (String.utf8EncodeChar (.ofUInt8 (B64.get i))).length = 1 := by decide +kernel
  have hc : ∀ i, (b64Char chunk i).utf8Size = 1 := by
    intro i
    rw [← String.length_utf8EncodeChar, b64Char]
    split
    · exact hd _
    · rfl
  simp [utf8, b64Chunk, List.length_flatMap, Function.comp_def, hc]

theorem utf8ByteSize_b64 (data : List UInt8) : (b64 data).utf8ByteSize = 4 * ((data.length + 2) / 3) := by
  have h : (b64 data).utf8ByteSize = (utf8 ((chunks 3 data).flatMap b64Chunk)).length := by
    show (b64 data).toByteArray.size = _
    rw [b64, String.toByteArray_ofList, List.utf8Encode, List.size_toByteArray]
    rfl
  have hm : (fun chunk => ((b64Chunk chunk).flatMap String.utf8EncodeChar).length) = fun _ => 4 :=
    funext length_utf8_b64Chunk
  rw [h, ← length_chunks_three, utf8, List.flatMap_assoc, List.length_flatMap, hm]
  simp [Nat.mul_comm]

/-- What `unb64` holds before each digit of a text it accepts, the digit
itself, and that the two together fit its word. -/
theorem unb64_fits {s : String} {data : List UInt8} (h : unb64 s = .ok data) {bs rest : List UInt8} {c : UInt8}
    (hs : b64Bytes s = bs ++ c :: rest) :
    ∃ d v, bs.foldlM (Unb64.step s) .init = .ok d ∧ b64Value c = some v ∧
      d.acc.toNat * 64 + v.toNat < 2 ^ 32 ∧ ((d.acc <<< 6) ||| v.toUInt32).toNat = d.acc.toNat * 64 + v.toNat := by
  rw [unb64, hs, List.foldlM_append] at h
  cases hd : bs.foldlM (Unb64.step s) .init with
  | error e => simp [hd, bind, Except.bind, Functor.map, Except.map] at h
  | ok d =>
    rw [hd] at h
    have hfits := Unb64.Fits.init.foldlM hd
    have hacc := Unb64.toNat_lt_two_pow hfits.bits hfits.acc
    cases hv : b64Value c with
    | none => simp [List.foldlM_cons, Unb64.step, hv, bind, Except.bind, Functor.map, Except.map] at h
    | some v =>
      have hlt := b64Value_lt hv
      exact ⟨d, v, rfl, rfl, by omega, Unb64.toNat_or_digit hacc hlt⟩

theorem unb64_b64 (data : List UInt8) : unb64 (b64 data) = .ok data := by
  obtain ⟨n, hn⟩ := foldlM_digits (s := b64 data) data []
  rw [unb64, b64Bytes_b64, show Unb64.init = Unb64.holding [] 0 0 from rfl, hn]
  rfl

/-- Base64 comes back as the bytes it was written from, in four characters
for each started three bytes; and no digit of an accepted text pushes a bit
out of the decoder's word. -/
theorem b64_reads_back :
    (∀ data, unb64 (b64 data) = .ok data ∧ (b64 data).utf8ByteSize = 4 * ((data.length + 2) / 3)) ∧
    ∀ s data, unb64 s = .ok data → ∀ bs c rest, b64Bytes s = bs ++ c :: rest →
      ∃ d v, bs.foldlM (Unb64.step s) .init = .ok d ∧ b64Value c = some v ∧
        d.acc.toNat * 64 + v.toNat < 2 ^ 32 ∧
        ((d.acc <<< 6) ||| v.toUInt32).toNat = d.acc.toNat * 64 + v.toNat :=
  ⟨fun data => ⟨unb64_b64 data, utf8ByteSize_b64 data⟩, fun _ _ h _ _ _ hs => unb64_fits h hs⟩

/-- Three letters of four, and white space, are read. -/
theorem b64_reads_back_letters :
    (unb64 (b64 [0x66, 0x6f]) = .ok [0x66, 0x6f] ∧ (b64 [0x66, 0x6f]).utf8ByteSize = 4) ∧
    ∃ d v, [90, 109].foldlM (Unb64.step "Zm 8=") .init = .ok d ∧ b64Value 56 = some v ∧
      d.acc.toNat * 64 + v.toNat < 2 ^ 32 ∧
      ((d.acc <<< 6) ||| v.toUInt32).toNat = d.acc.toNat * 64 + v.toNat :=
  ⟨b64_reads_back.1 [0x66, 0x6f], b64_reads_back.2 "Zm 8=" [0x66, 0x6f] (by decide) [90, 109] 56 [] (by decide)⟩

/-! ## Ranges -/

theorem toNat_succ {c : UInt8} (hc : c < 0xff) : (c + 1).toNat = c.toNat + 1 := by
  have h := UInt8.lt_iff_toNat_lt.mp hc
  rw [UInt8.toNat_add]
  exact Nat.mod_eq_of_lt (Nat.succ_lt_succ h)

theorem lt_succ_iff {c : UInt8} (hc : c < 0xff) (a : UInt8) : a < c + 1 ↔ ¬ c < a := by
  rw [UInt8.lt_iff_toNat_lt, UInt8.lt_iff_toNat_lt, toNat_succ hc]
  omega

theorem not_top_lt {c : UInt8} (hc : ¬ c < 0xff) (a : UInt8) : ¬ c < a := by
  have ha := a.toNat_lt
  have h : ¬ c.toNat < 255 := fun h => hc (UInt8.lt_iff_toNat_lt.mpr h)
  rw [UInt8.lt_iff_toNat_lt]
  omega

theorem inRange_prefixEndLoop (r k : List UInt8) : Etcd.InRange r.reverse (prefixEndLoop r) k ↔ r.reverse <+: k := by
  induction r with
  | nil => simp [Etcd.InRange, prefixEndLoop]
  | cons c r ih =>
    rw [prefixEndLoop, List.reverse_cons, List.reverse_cons]
    generalize r.reverse = p at ih
    split
    · rename_i hc
      have h0 : p ++ [c + 1] ≠ [0] := by
        intro h
        have hz : [c + 1] = [0] := List.append_inj_right' (show p ++ [c + 1] = [] ++ [0] from h) rfl
        have hz := congrArg UInt8.toNat (List.singleton_inj.mp hz)
        rw [toNat_succ hc] at hz
        cases hz
      simp only [Etcd.InRange, h0, false_or]
      exact Lex.concat_le_and_lt_iff (lt_succ_iff hc)
    · -- the last byte is 0xff: the range ends where the one of the rest ends
      rename_i hc
      constructor
      · rintro ⟨hl, hu⟩
        obtain ⟨t, rfl⟩ := ih.mp ⟨List.le_trans List.le_append_left hl, hu⟩
        exact (Lex.concat_le_iff_of_top (not_top_lt hc)).mp hl
      · intro h
        exact ⟨h.le, (ih.mpr ((List.prefix_append p [c]).trans h)).2⟩

/-- The range from a prefix to its end holds the keys that start with it, no
others. -/
theorem inRange_prefixEnd (p k : List UInt8) : Etcd.InRange p (prefixEnd p) k ↔ p <+: k := by
  have h := inRange_prefixEndLoop p.reverse k
  rw [List.reverse_reverse] at h
  exact h

/-- A range read asks for the keys that start with its prefix. -/
theorem rangePrefix_asks (pre : String) :
    ∃ first last, unb64 (rangePrefix pre).key = .ok first ∧ unb64 (rangePrefix pre).rangeEnd = .ok last ∧
      ∀ k, Etcd.InRange first last k ↔ utf8 pre.toList <+: k := by
  refine ⟨utf8 pre.toList, prefixEnd (utf8 pre.toList), unb64_b64 _, unb64_b64 _, fun k => ?_⟩
  have h := inRange_prefixEndLoop (utf8 pre.toList).reverse k
  rw [List.reverse_reverse] at h
  exact h

end StormStorage
