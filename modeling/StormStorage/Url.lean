import Mathlib.Data.List.Basic
import Mathlib.Data.List.TakeWhile

/-!
# URLs

A URL as its characters: the parts it has as a standard URL, and
percent-encoding.

* `lastSegment_append`: what stands before a `/` does not change the last
  segment;
* `percentDecode_escape`: `%` and `/` escaped come back as they were.
-/

namespace StormStorage.Url

/-! ## Parts -/

/-- A text cut at the first `://`. -/
def breakScheme : List Char → Option (List Char × List Char)
  | [] => none
  | c :: rest =>
    if c = ':' ∧ ['/', '/'] <+: rest then some ([], rest.drop 2)
    else (breakScheme rest).map fun (s, r) => (c :: s, r)

/-- A query begins here, or a fragment. -/
def EndsPath (c : Char) : Prop := c = '?' ∨ c = '#'

instance : DecidablePred EndsPath := fun _ => inferInstanceAs (Decidable (_ ∨ _))

def path (url : List Char) : List Char :=
  let hier := url.takeWhile (¬ EndsPath ·)
  match breakScheme hier with
  | none => hier
  | some (_, rest) => rest.dropWhile (· ≠ '/')

def query (url : List Char) : List Char := ((url.takeWhile (· ≠ '#')).dropWhile (· ≠ '?')).drop 1

/-- A pair of the query, as it stands there. -/
def Carries (url pair : List Char) : Prop := pair ∈ (query url).splitOn '&'

instance (url pair : List Char) : Decidable (Carries url pair) := inferInstanceAs (Decidable (_ ∈ _))

def lastSegment (path : List Char) : List Char := (path.reverse.takeWhile (· ≠ '/')).reverse

/-! ## Percent-encoding -/

def hexValue (c : Char) : Option Nat :=
  if '0' ≤ c ∧ c ≤ '9' then some (c.toNat - '0'.toNat)
  else if 'a' ≤ c ∧ c ≤ 'f' then some (c.toNat - 'a'.toNat + 10)
  else if 'A' ≤ c ∧ c ≤ 'F' then some (c.toNat - 'A'.toNat + 10)
  else none

def utf8 (s : List Char) : List UInt8 := s.flatMap String.utf8EncodeChar

def percentDecode : List Char → List UInt8
  | '%' :: a :: b :: rest =>
    match hexValue a, hexValue b with
    | some x, some y => .ofNat (16 * x + y) :: percentDecode rest
    | _, _ => String.utf8EncodeChar '%' ++ percentDecode (a :: b :: rest)
  | c :: rest => String.utf8EncodeChar c ++ percentDecode rest
  | [] => []

def replaceChar (c : Char) (by_ : List Char) (s : List Char) : List Char :=
  s.flatMap fun x => if x = c then by_ else [x]

/-! ## Lemmas -/

theorem breakScheme_eq {s t r : List Char} (h : breakScheme s = some (t, r)) : s = t ++ "://".toList ++ r := by
  induction s generalizing t with
  | nil => simp [breakScheme] at h
  | cons c s ih =>
    unfold breakScheme at h
    split at h
    · rename_i hc
      obtain ⟨rfl, u, rfl⟩ := hc
      cases h
      rfl
    · obtain ⟨⟨t', r'⟩, hb, he⟩ := Option.map_eq_some_iff.mp h
      cases he
      rw [ih hb]
      rfl

/-- A text without a `/` has no scheme. -/
theorem breakScheme_eq_none {s : List Char} (h : '/' ∉ s) : breakScheme s = none := by
  cases hb : breakScheme s with
  | none => rfl
  | some p =>
    refine absurd ?_ h
    rw [breakScheme_eq (t := p.1) (r := p.2) hb]
    simp

theorem breakScheme_append {s r : List Char} (h : ':' ∉ s) : breakScheme (s ++ "://".toList ++ r) = some (s, r) := by
  induction s with
  | nil => simp [breakScheme]
  | cons c s ih =>
    rw [List.mem_cons, not_or] at h
    have hc : ¬ (c = ':' ∧ ['/', '/'] <+: s ++ "://".toList ++ r) := fun hc => h.1 hc.1.symm
    rw [List.cons_append, List.cons_append, breakScheme, if_neg hc, ih h.2]
    rfl

theorem lastSegment_of_not_mem {s t : List Char} (h : '/' ∉ t) : lastSegment (s ++ '/' :: t) = t := by
  unfold lastSegment
  rw [List.reverse_append, List.reverse_cons, List.append_assoc, List.takeWhile_append_of_pos]
  · simp
  · intro c hc
    have hne : c ≠ '/' := fun he => h (by rw [← he]; exact List.mem_reverse.mp hc)
    simpa using hne

theorem exists_lastSegment {s : List Char} (h : '/' ∈ s) :
    ∃ t, s = t ++ '/' :: lastSegment s ∧ '/' ∉ lastSegment s := by
  obtain ⟨t, u, hs, hu⟩ := List.eq_append_cons_of_mem (List.mem_reverse.mpr h)
  have hs' : s = u.reverse ++ '/' :: t.reverse := by
    have := congrArg List.reverse hs
    simpa using this
  have ht : '/' ∉ t.reverse := by simpa using hu
  have hlast : lastSegment s = t.reverse := by rw [hs', lastSegment_of_not_mem ht]
  exact ⟨u.reverse, by rw [hlast]; exact hs', by rw [hlast]; exact ht⟩

/-- Only what follows the last `/` counts. -/
theorem lastSegment_append {s t : List Char} (h : '/' ∈ t) : lastSegment (s ++ t) = lastSegment t := by
  obtain ⟨u, hu, hno⟩ := exists_lastSegment h
  have : s ++ t = (s ++ u) ++ '/' :: lastSegment t := by rw [List.append_assoc, ← hu]
  rw [this, lastSegment_of_not_mem hno]

theorem percentDecode_cons {c : Char} (h : c ≠ '%') (s : List Char) :
    percentDecode (c :: s) = String.utf8EncodeChar c ++ percentDecode s := by
  rw [percentDecode]
  rintro a b rest rfl
  exact absurd rfl h

/-- `%` and then `/` escaped. -/
def escape (s : List Char) : List Char := replaceChar '/' "%2F".toList (replaceChar '%' "%25".toList s)

theorem escape_cons (c : Char) (s : List Char) :
    escape (c :: s) = (if c = '%' then "%25".toList else if c = '/' then "%2F".toList else [c]) ++ escape s := by
  unfold escape replaceChar
  rw [List.flatMap_cons, List.flatMap_append]
  congr 1
  by_cases hp : c = '%'
  · rw [if_pos hp, if_pos hp]
    rfl
  · rw [if_neg hp, if_neg hp, List.flatMap_singleton]

theorem escape_append (s t : List Char) : escape (s ++ t) = escape s ++ escape t := by
  simp [escape, replaceChar, List.flatMap_append]

theorem mem_escape {c : Char} {s : List Char} (h : c ∈ escape s) : c ≠ '/' ∧ (c ∈ s ∨ c ∈ "%25F".toList) := by
  induction s with
  | nil => simp [escape, replaceChar] at h
  | cons x s ih =>
    rw [escape_cons, List.mem_append] at h
    rcases h with h | h
    · split at h
      · refine ⟨fun he => absurd h (by rw [he]; decide), .inr ?_⟩
        revert h
        simp
        tauto
      · split at h
        · refine ⟨fun he => absurd h (by rw [he]; decide), .inr ?_⟩
          revert h
          simp
          tauto
        · rename_i hs
          rw [List.mem_singleton] at h
          exact ⟨h ▸ hs, .inl (h ▸ List.mem_cons_self)⟩
    · exact ⟨(ih h).1, (ih h).2.imp_left (List.mem_cons_of_mem _)⟩

/-- What was escaped is read back as it was. -/
theorem percentDecode_escape (s : List Char) : percentDecode (escape s) = utf8 s := by
  induction s with
  | nil => rfl
  | cons c s ih =>
    have hu : utf8 (c :: s) = String.utf8EncodeChar c ++ utf8 s := rfl
    rw [escape_cons, hu, ← ih]
    by_cases hp : c = '%'
    · subst hp
      rfl
    · rw [if_neg hp]
      by_cases hs : c = '/'
      · subst hs
        rfl
      · rw [if_neg hs, List.singleton_append, percentDecode_cons hp]

theorem utf8_append (s t : List Char) : utf8 (s ++ t) = utf8 s ++ utf8 t := List.flatMap_append

/-- A text that goes on is not the same text. -/
theorem utf8_ne_append {s : List Char} {c : Char} {t : List Char} : utf8 s ≠ utf8 (s ++ c :: t) := by
  intro h
  rw [utf8_append] at h
  have hnil : utf8 (c :: t) = [] := by simpa using h.symm
  have hc : String.utf8EncodeChar c = [] := (List.append_eq_nil_iff.mp hnil).1
  exact String.utf8EncodeChar_ne_nil hc

end StormStorage.Url
