import StormStorage.Events
import Mathlib.Data.List.Induction

/-!
# What a client of the event ring reads

* `listEvents_of`: an answer has the events that are newer and among the last
  `cap`, in order;
* `follow_spec`: a client that follows is answered the last `cap` of what
  happened since it last asked, and has all that happened when it never falls
  more than `cap` behind.
-/

namespace StormStorage.EventLog

variable {cap : Nat}

/-- A ring of the last `cap` stays one. -/
theorem pushRing_drop {α : Type} (hcap : 0 < cap) (xs : List α) (x : α) :
    pushRing cap (xs.drop (xs.length - cap)) x = (xs ++ [x]).drop ((xs ++ [x]).length - cap) := by
  have hlen : (xs.drop (xs.length - cap)).length = min xs.length cap := by
    rw [List.length_drop]
    omega
  rw [pushRing, hlen, List.length_append, List.length_singleton]
  by_cases hfull : cap ≤ xs.length
  · rw [if_pos (by omega), List.drop_drop, List.drop_append_of_le_length (by omega)]
    congr 2
    omega
  · rw [if_neg (by omega), List.drop_append_of_le_length (by omega)]
    congr 2
    omega

/-- The events of what happened, numbered from `n + 1`. -/
def numbered : Nat → List Happening → List LoggedEvent
  | _, [] => []
  | n, h :: hs => { h with seq := n + 1 } :: numbered (n + 1) hs

@[simp] theorem length_numbered (n : Nat) (hs : List Happening) : (numbered n hs).length = hs.length := by
  induction hs generalizing n with
  | nil => rfl
  | cons h hs ih => simp [numbered, ih]

theorem numbered_append (n : Nat) (hs hs' : List Happening) :
    numbered n (hs ++ hs') = numbered n hs ++ numbered (n + hs.length) hs' := by
  induction hs generalizing n with
  | nil => rfl
  | cons h hs ih =>
    rw [List.cons_append, numbered, numbered, ih, List.cons_append, List.length_cons,
      show n + 1 + hs.length = n + (hs.length + 1) by omega]

/-- What is newer than `since` are all but the first events. -/
theorem filter_numbered (since n : Nat) (hs : List Happening) :
    (numbered n hs).filter (since < ·.seq) = (numbered n hs).drop (since - n) := by
  induction hs generalizing n with
  | nil => simp [numbered]
  | cons h hs ih =>
    by_cases hlt : since < n + 1
    · rw [numbered, List.filter_cons_of_pos (by simpa using hlt), ih,
        show since - n = 0 by omega, show since - (n + 1) = 0 by omega, List.drop_zero, List.drop_zero]
    · rw [numbered, List.filter_cons_of_neg (by simpa using hlt), ih,
        show since - n = since - (n + 1) + 1 by omega, List.drop_succ_cons]

theorem drop_numbered (k n : Nat) (hs : List Happening) : (numbered n hs).drop k = numbered (n + k) (hs.drop k) := by
  induction k generalizing n hs with
  | zero => rfl
  | succ k ih =>
    cases hs with
    | nil => simp [numbered]
    | cons h hs => rw [numbered, List.drop_succ_cons, ih, List.drop_succ_cons, show n + 1 + k = n + (k + 1) by omega]

theorem seq_of_head_numbered {n : Nat} {hs : List Happening} {e : LoggedEvent} (h : (numbered n hs).head? = some e) :
    e.seq = n + 1 := by
  cases hs with
  | nil => cases h
  | cons x hs =>
    obtain rfl := Option.some.inj h
    rfl

/-- The log of what happened holds the last `cap` events. -/
theorem of_eq (hcap : 0 < cap) (happened : List Happening) :
    of cap happened =
      { nextSeq := happened.length + 1, cap := cap, ring := (numbered 0 happened).drop (happened.length - cap) } := by
  induction happened using List.reverseRecOn with
  | nil => simp [of, new, numbered]
  | append_singleton happened h ih =>
    have hring := pushRing_drop hcap (numbered 0 happened) { h with seq := happened.length + 1 }
    rw [length_numbered] at hring
    rw [of, List.foldl_append]
    show (push (of cap happened) h).2 = _
    rw [ih, push, numbered_append, hring]
    simp [numbered]

/-- An answer has the events that are newer and among the last `cap`, each once and in order. -/
theorem listEvents_of (hcap : 0 < cap) (happened : List Happening) (since : Nat) :
    (of cap happened).listEvents since =
      (happened.length, (numbered 0 happened).drop (max since (happened.length - cap))) := by
  have hring : ((numbered 0 happened).drop (happened.length - cap)).filter (since < ·.seq) =
      (numbered 0 happened).drop (max since (happened.length - cap)) := by
    rw [drop_numbered, filter_numbered, ← drop_numbered, List.drop_drop]
    congr 1
    omega
  rw [listEvents, latestSeq, EventLog.since, of_eq hcap]
  exact Prod.ext (by simp) hring

/-! ## Clients that follow -/

/-- What each batch brings a client, when `n` events are older. -/
def brought (cap n : Nat) : List (List Happening) → List (List LoggedEvent)
  | [] => []
  | batch :: batches => (numbered n batch).drop (batch.length - cap) :: brought cap (n + batch.length) batches

theorem follow_of (hcap : 0 < cap) (happened : List Happening) (batches : List (List Happening)) :
    (of cap happened).follow happened.length batches = brought cap happened.length batches := by
  induction batches generalizing happened with
  | nil => rfl
  | cons batch batches ih =>
    have hof : batch.foldl (fun log h => (log.push h).2) (of cap happened) = of cap (happened ++ batch) := by
      rw [of, of, List.foldl_append]
    have ih := ih (happened ++ batch)
    rw [List.length_append] at ih
    have hdrop : (numbered 0 (happened ++ batch)).drop (max happened.length (happened.length + batch.length - cap)) =
        (numbered happened.length batch).drop (batch.length - cap) := by
      rw [numbered_append, show max happened.length (happened.length + batch.length - cap) =
        (numbered 0 happened).length + (batch.length - cap) by rw [length_numbered]; omega, List.drop_length_add_append,
        Nat.zero_add]
    rw [follow, hof, listEvents_of hcap, List.length_append, hdrop, brought]
    exact congrArg _ ih

theorem brought_sublist (n : Nat) (batches : List (List Happening)) :
    (brought cap n batches).flatten.Sublist (numbered n batches.flatten) := by
  induction batches generalizing n with
  | nil => exact List.Sublist.refl _
  | cons batch batches ih =>
    rw [brought, List.flatten_cons, List.flatten_cons, numbered_append]
    exact (List.drop_sublist ..).append (ih _)

theorem brought_eq_iff (n : Nat) (batches : List (List Happening)) :
    (brought cap n batches).flatten = numbered n batches.flatten ↔ ∀ batch ∈ batches, batch.length ≤ cap := by
  induction batches generalizing n with
  | nil => simp [brought, numbered]
  | cons batch batches ih =>
    rw [brought, List.flatten_cons, List.flatten_cons, numbered_append, List.forall_mem_cons, ← ih (n + batch.length)]
    constructor
    · intro h
      have hlen := congrArg List.length h
      have hsub : (brought cap (n + batch.length) batches).flatten.Sublist _ := brought_sublist (n + batch.length) batches
      have hle := hsub.length_le
      simp only [List.length_append, List.length_drop, length_numbered] at hlen hle
      have hb : batch.length ≤ cap := by omega
      rw [show batch.length - cap = 0 by omega, List.drop_zero] at h
      exact ⟨hb, List.append_cancel_left h⟩
    · rintro ⟨hb, h⟩
      rw [show batch.length - cap = 0 by omega, List.drop_zero, h]

/-- A client that follows is answered the last `cap` of what happened since it
last asked. It has nothing twice or out of order, and has all that happened
unless it fell more than `cap` behind, which the first number of an answer shows. -/
theorem follow_spec (hcap : 0 < cap) :
    (∀ batches,
      (new cap).follow 0 batches = brought cap 0 batches ∧
      ((new cap).follow 0 batches).flatten.Sublist (numbered 0 batches.flatten) ∧
      (((new cap).follow 0 batches).flatten = numbered 0 batches.flatten ↔ ∀ batch ∈ batches, batch.length ≤ cap)) ∧
    (∀ happened since, since ≤ happened.length →
      ((of cap happened).since since = numbered since (happened.drop since) ↔
        ∀ e, ((of cap happened).since since).head? = some e → e.seq = since + 1)) := by
  refine ⟨fun batches => ?_, fun happened since hs => ?_⟩
  · have hnew : (new cap).follow 0 batches = brought cap 0 batches := follow_of hcap [] batches
    rw [hnew]
    exact ⟨rfl, brought_sublist 0 batches, brought_eq_iff 0 batches⟩
  · have h := congrArg Prod.snd (listEvents_of hcap happened since)
    rw [drop_numbered, Nat.zero_add] at h
    rw [show (of cap happened).since since = _ from h]
    by_cases hkept : happened.length - cap ≤ since
    · rw [Nat.max_eq_left hkept]
      exact iff_of_true rfl fun e => seq_of_head_numbered
    · rw [Nat.max_eq_right (by omega)]
      refine iff_of_false (fun he => ?_) fun hall => ?_
      · have hlen := congrArg List.length he
        simp only [length_numbered, List.length_drop] at hlen
        omega
      · have hne : numbered (happened.length - cap) (happened.drop (happened.length - cap)) ≠ [] := by
          rw [← List.length_pos_iff, length_numbered, List.length_drop]
          omega
        have hhead := List.head?_eq_some_head hne
        have hseq := seq_of_head_numbered hhead
        have := hall _ hhead
        omega

theorem follow_spec_two :
    let h : Happening := { time := 0, subject := none, severity := .info, kind := "node", message := "" }
    ((new 2).follow 0 [[h, h], [h]]).flatten = numbered 0 [h, h, h] :=
  ((((follow_spec (by decide)).1 _).2.2).mpr (by simp))

end StormStorage.EventLog
