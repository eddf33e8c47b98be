import Mathlib.Data.List.Basic

/-!
# A directory of files that a crash can catch

A `Disk` has files and the names they are under. What is written to a file is
sure to be kept once the file is synced, and what a name stands for once the
directory is. A crash leaves each name with something it stood for since then,
and a file that was not synced with anything (`Survives`).

* `survives_read`: what a crash leaves under a name is a file it may stand for,
  whole when it was synced;
* `mem_values_setName`: what a name may stand for after one is set anew;
* `Tidy`: a temporary name has its file to itself, whatever is done with names.
-/

/-- Names `ν` and contents `α`. -/
structure Disk (ν α : Type) where
  /-- What a file holds, and whether it is synced. -/
  files : Nat → α × Bool
  /-- The files from here on are unused. -/
  next : Nat
  names : ν → Option Nat
  /-- What a name stood for before, since the directory was synced. -/
  older : ν → List (Option Nat)

namespace Disk

section

variable {ν α : Type} {d : Disk ν α}

def empty (blank : α) : Disk ν α where
  files _ := (blank, false)
  next := 0
  names _ := none
  older _ := []

/-- What a name may stand for after a crash. -/
def values (d : Disk ν α) (n : ν) : List (Option Nat) := d.names n :: d.older n

def setFile (d : Disk ν α) (i : Nat) (x : α × Bool) : Disk ν α :=
  { d with files := fun j => if j = i then x else d.files j }

def write (d : Disk ν α) (i : Nat) (x : α) : Disk ν α := d.setFile i (x, false)

def sync (d : Disk ν α) (i : Nat) : Disk ν α := d.setFile i ((d.files i).1, true)

def syncDir (d : Disk ν α) : Disk ν α := { d with older := fun _ => [] }

/-- What each name may read after a crash. -/
def Survives (d : Disk ν α) (r : ν → Option α) : Prop :=
  ∃ (names : ν → Option Nat) (content : Nat → α), (∀ n, names n ∈ d.values n) ∧
    (∀ i, (d.files i).2 = true → content i = (d.files i).1) ∧ ∀ n, r n = (names n).map content

theorem survives_read {r : ν → Option α} (h : d.Survives r) (n : ν) :
    r n = none ∧ none ∈ d.values n ∨
      ∃ i, some i ∈ d.values n ∧ ((d.files i).2 = true → r n = some (d.files i).1) := by
  obtain ⟨names, content, hnames, hcontent, hr⟩ := h
  have hn := hnames n
  rw [hr n]
  cases hv : names n with
  | none => exact .inl ⟨rfl, hv ▸ hn⟩
  | some i => exact .inr ⟨i, hv ▸ hn, fun hs => congrArg some (hcontent i hs)⟩

theorem values_syncDir (n : ν) : d.syncDir.values n = [d.names n] := rfl

theorem mem_values_syncDir {n : ν} {v : Option Nat} (h : v ∈ d.syncDir.values n) : v ∈ d.values n := by
  rw [values_syncDir, List.mem_singleton] at h
  exact h ▸ List.mem_cons_self ..

end

/-! ## What a program does with names -/

variable {ν α : Type} [DecidableEq ν]

def setName (d : Disk ν α) (n : ν) (v : Option Nat) : Disk ν α :=
  { d with
    names := fun m => if m = n then v else d.names m
    older := fun m => if m = n then d.names n :: d.older n else d.older m }

/-- Open a file for writing: a new one, or the one of that name, emptied. -/
def create (blank : α) (d : Disk ν α) (n : ν) : Nat × Disk ν α :=
  match d.names n with
  | some i => (i, d.setFile i (blank, false))
  | none => (d.next, ({ d with next := d.next + 1 }.setFile d.next (blank, false)).setName n (some d.next))

/-- A second name of a file; there must be none of that name. -/
def link (d : Disk ν α) (a b : ν) : Option (Disk ν α) :=
  match d.names a, d.names b with
  | some i, none => some (d.setName b (some i))
  | _, _ => none

/-- One name of a file becomes another, in place of what had it. Two names of
one file stay. -/
def rename (d : Disk ν α) (a b : ν) : Option (Disk ν α) :=
  match d.names a with
  | none => none
  | some i => some (if d.names b = some i then d else (d.setName b (some i)).setName a none)

def remove (d : Disk ν α) (n : ν) : Option (Disk ν α) :=
  if d.names n = none then none else some (d.setName n none)

variable {d d' : Disk ν α} {n a b : ν} {i : Nat}

theorem names_setName (n m : ν) (v : Option Nat) : (d.setName n v).names m = if m = n then v else d.names m := rfl

theorem values_setName (n m : ν) (v : Option Nat) :
    (d.setName n v).values m = if m = n then v :: d.values n else d.values m := by
  by_cases h : m = n <;> simp [values, setName, h]

theorem mem_values_setName {m : ν} {v w : Option Nat} (h : w ∈ (d.setName n v).values m) :
    w ∈ d.values m ∨ m = n ∧ w = v := by
  rw [values_setName] at h
  split at h
  · rename_i he
    subst he
    exact (List.mem_cons.mp h).symm.imp_right fun hw => ⟨rfl, hw⟩
  · exact .inl h

theorem link_eq (h : d.link a b = some d') : ∃ i, d.names a = some i ∧ d.names b = none ∧ d' = d.setName b (some i) := by
  unfold link at h
  split at h <;> [skip; cases h]
  rename_i i ha hb
  exact ⟨i, ha, hb, (Option.some.inj h).symm⟩

theorem rename_eq (h : d.rename a b = some d') : ∃ i, d.names a = some i ∧
    (d.names b = some i ∧ d' = d ∨ d.names b ≠ some i ∧ d' = (d.setName b (some i)).setName a none) := by
  unfold rename at h
  split at h <;> [cases h; skip]
  rename_i i ha
  refine ⟨i, ha, ?_⟩
  split at h
  · rename_i hb
    exact .inl ⟨hb, (Option.some.inj h).symm⟩
  · rename_i hb
    exact .inr ⟨hb, (Option.some.inj h).symm⟩

theorem remove_eq (h : d.remove n = some d') : d' = d.setName n none := by
  unfold remove at h
  split at h <;> [cases h; exact (Option.some.inj h).symm]

/-! ## Temporary names -/

/-- The names stand for files in use, and a temporary one for a file that no
other name stood for. -/
structure Tidy (temp : ν → Prop) (d : Disk ν α) : Prop where
  bounded : ∀ n i, some i ∈ d.values n → i < d.next
  own : ∀ n i, temp n → d.names n = some i → ∀ m, m ≠ n → some i ∉ d.values m

namespace Tidy

variable {temp : ν → Prop}

omit [DecidableEq ν] in
theorem setFile (h : d.Tidy temp) (i : Nat) (x : α × Bool) : (d.setFile i x).Tidy temp := ⟨h.bounded, h.own⟩

omit [DecidableEq ν] in
theorem syncDir (h : d.Tidy temp) : d.syncDir.Tidy temp :=
  ⟨fun n i hv => h.bounded n i (mem_values_syncDir hv), fun n i ht hn m hm hv => h.own n i ht hn m hm (mem_values_syncDir hv)⟩

/-- A lasting name takes a file that a lasting name has, or a temporary one
that then goes. -/
theorem setName (h : d.Tidy temp) (hb : ¬ temp b) (hi : i < d.next)
    (hown : ∀ n, temp n → d.names n ≠ some i) : (d.setName b (some i)).Tidy temp where
  bounded n j hv := by
    rcases mem_values_setName hv with hv | ⟨-, hv⟩
    · exact h.bounded n j hv
    · exact Option.some.inj hv ▸ hi
  own n j ht hn m hm hv := by
    have hne : n ≠ b := fun he => hb (he ▸ ht)
    rw [names_setName, if_neg hne] at hn
    rcases mem_values_setName hv with hv | ⟨-, hv⟩
    · exact h.own n j ht hn m hm hv
    · exact hown n ht (hn.trans hv)

theorem clear (h : d.Tidy temp) (n : ν) : (d.setName n none).Tidy temp where
  bounded m j hv := h.bounded m j ((mem_values_setName hv).resolve_right fun hv => nomatch hv.2)
  own m j ht hm k hk hv := by
    rw [names_setName] at hm
    split at hm <;> [cases hm; skip]
    exact h.own m j ht hm k hk ((mem_values_setName hv).resolve_right fun hv => nomatch hv.2)

theorem create (h : d.Tidy temp) (blank : α) (n : ν) : (d.create blank n).2.Tidy temp := by
  unfold Disk.create
  split
  · exact h.setFile ..
  · rename_i hnone
    refine ⟨fun m j hv => ?_, fun m j ht hm k hk hv => ?_⟩
    · rcases mem_values_setName hv with hv | ⟨-, hv⟩
      · exact Nat.lt_succ_of_lt (h.bounded m j hv)
      · exact Option.some.inj hv ▸ Nat.lt_succ_self _
    · rw [names_setName] at hm
      split at hm
      · rename_i he
        obtain rfl := Option.some.inj hm
        rcases mem_values_setName hv with hv | ⟨hkn, -⟩
        · exact Nat.lt_irrefl _ (h.bounded k _ hv)
        · exact hk (hkn.trans he.symm)
      · rcases mem_values_setName hv with hv | ⟨-, hv⟩
        · exact h.own m j ht hm k hk hv
        · have hlt := h.bounded m j (hm ▸ List.mem_cons_self ..)
          rw [Option.some.inj hv] at hlt
          exact Nat.lt_irrefl _ hlt

theorem link (h : d.Tidy temp) (ha : ¬ temp a) (hb : ¬ temp b) (hl : d.link a b = some d') : d'.Tidy temp := by
  obtain ⟨i, hi, -, rfl⟩ := link_eq hl
  have hv : some i ∈ d.values a := hi ▸ List.mem_cons_self ..
  exact h.setName hb (h.bounded a i hv) fun n ht hn => h.own n i ht hn a (fun he => ha (he ▸ ht)) hv

theorem rename (h : d.Tidy temp) (hb : ¬ temp b) (hr : d.rename a b = some d') : d'.Tidy temp := by
  obtain ⟨i, hi, ⟨-, rfl⟩ | ⟨-, rfl⟩⟩ := rename_eq hr
  · exact h
  · have hv : some i ∈ d.values a := hi ▸ List.mem_cons_self ..
    refine ⟨fun m j hm => ?_, fun m j ht hm k hk hkv => ?_⟩
    · rcases mem_values_setName hm with hm | ⟨-, hm⟩
      · rcases mem_values_setName hm with hm | ⟨-, hm⟩
        · exact h.bounded m j hm
        · exact Option.some.inj hm ▸ h.bounded a i hv
      · cases hm
    · rw [names_setName] at hm
      split at hm <;> [cases hm; skip]
      rename_i hma
      have hmb : m ≠ b := fun he => hb (he ▸ ht)
      rw [names_setName, if_neg hmb] at hm
      rcases mem_values_setName hkv with hkv | ⟨-, hkv⟩
      · rcases mem_values_setName hkv with hkv | ⟨-, hkv⟩
        · exact h.own m j ht hm k hk hkv
        · exact h.own m j ht hm a (Ne.symm hma) (hkv ▸ hv)
      · cases hkv

theorem remove (h : d.Tidy temp) (hr : d.remove n = some d') : d'.Tidy temp := remove_eq hr ▸ h.clear n

end Tidy

end Disk
