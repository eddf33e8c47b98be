import StormStorage.Api.Gate
import Mathlib.Data.List.Perm.Basic

/-!
# Each write runs once, where it may

* `same_iff`: the comparison of tokens is equality;
* `gate_spec`: over every run of the gateway each request that was asked is at one
  place, runs at most once and is sent on at most once; a write runs at an
  instance that leads, with the token that its client presented.
-/

namespace StormStorage.Api

variable {s : Server} {req q : Request} {token : String}

/-! ## The token -/

theorem foldl_or (xs : List (UInt8 × UInt8)) (acc : UInt8) :
    xs.foldl (fun acc p => acc ||| (p.1 ^^^ p.2)) acc = 0 ↔ acc = 0 ∧ ∀ p ∈ xs, p.1 = p.2 := by
  induction xs generalizing acc with
  | nil => simp
  | cons p xs ih =>
    rw [List.foldl_cons, ih, UInt8.or_eq_zero_iff, UInt8.xor_eq_zero_iff, List.forall_mem_cons, and_assoc]

theorem eq_of_zip {α : Type} {a b : List α} (hl : a.length = b.length) (h : ∀ p ∈ a.zip b, p.1 = p.2) : a = b := by
  refine List.ext_getElem hl fun i h1 h2 => ?_
  have hi : i < (a.zip b).length := by
    rw [List.length_zip]
    omega
  have := h _ (List.getElem_mem hi)
  rwa [List.getElem_zip] at this

theorem same_iff {a b : List UInt8} : same a b = true ↔ a = b := by
  rw [same, Bool.and_eq_true, decide_eq_true_iff, decide_eq_true_iff, foldl_or]
  constructor
  · rintro ⟨hl, -, h⟩
    exact eq_of_zip hl h
  · rintro rfl
    refine ⟨rfl, rfl, fun p hp => ?_⟩
    rw [List.zip_eq_zipWith, List.zipWith_self] at hp
    obtain ⟨x, -, rfl⟩ := List.mem_map.mp hp
    rfl

theorem bytes_inj {a b : String} : bytes a = bytes b ↔ a = b := by
  rw [bytes, bytes, Array.toList_inj, ← ByteArray.ext_iff, String.toByteArray_inj]

theorem requireToken_run : requireToken token req = .run ↔
    token = "" ∨ guarded req.method req.path = false ∨ req.presented = some token := by
  rw [requireToken]
  by_cases hopen : token = "" ∨ ¬ guarded req.method req.path
  · rw [if_pos hopen]
    refine iff_of_true rfl (hopen.imp_right fun h => .inl (by simpa using h))
  · obtain ⟨htoken, hguard⟩ := not_or.mp hopen
    rw [if_neg hopen, Classical.not_not] at *
    cases hp : req.presented with
    | none => simp [htoken, hguard]
    | some t =>
      by_cases ht : t = token
      · simp [htoken, hguard, ht, same_iff]
      · simp [htoken, hguard, ht, same_iff, bytes_inj]

/-! ## One arrival -/

theorem get_copyHeaders (headers : KeyMap String) (names : List String) (out : KeyMap String) (k : String) :
    (names.foldl (copyHeader headers) out)[k]? = if k ∈ names then headers[k]?.or out[k]? else out[k]? := by
  induction names generalizing out with
  | nil => simp
  | cons name names ih =>
    have hone : (copyHeader headers out name)[k]? = if k = name then headers[k]?.or out[k]? else out[k]? := by
      rw [copyHeader]
      cases hv : headers[name]? with
      | none =>
        by_cases hk : k = name <;> simp [hk, hv]
      | some v =>
        by_cases hk : k = name
        · simp [hk, hv]
        · rw [if_neg hk, KeyMap.get_insert_ne _ _ (Ne.symm hk)]
    rw [List.foldl_cons, ih, hone]
    by_cases hk : k = name <;> by_cases hmem : k ∈ names <;> cases headers[k]? <;> simp_all

theorem presented_passedOn (req : Request) (inst : String) : (req.passedOn inst).presented = req.presented := by
  have hauth : (req.passedOn inst).headers["authorization"]? = req.headers["authorization"]? := by
    rw [Request.passedOn, get_copyHeaders, if_pos (by decide), KeyMap.get_insert, if_neg (by decide), KeyMap.get_empty,
      Option.or_none]
  rw [Request.presented, hauth]
  rfl

theorem forwarded_passedOn (req : Request) (inst : String) : (req.passedOn inst).headers.contains FORWARDED = true := by
  rw [KeyMap.contains_eq, Request.passedOn, get_copyHeaders, if_neg (by decide), KeyMap.get_insert_self]
  rfl

/-- The request is what was asked, or that sent on once. -/
def Sent (q req : Request) : Prop := req = q ∨ ∃ inst, req = q.passedOn inst

/-- A request that is sent on was not sent on before. -/
theorem gate_forward {url : String} {req' : Request} (h : s.gate req = .forward url req') :
    s.keeps req = false ∧ req.headers.contains FORWARDED = false ∧ req' = req.passedOn s.inst := by
  rw [Server.gate] at h
  split at h
  · rw [requireToken] at h
    split at h
    · cases h
    · split at h <;> cases h
  · rename_i hkeep
    split at h
    · cases h
    · rename_i hfresh
      split at h
      · cases h
      · split at h
        · cases h
        · obtain ⟨-, rfl⟩ := Verdict.forward.inj h
          exact ⟨Bool.eq_false_iff.mpr hkeep, Bool.eq_false_iff.mpr hfresh, rfl⟩

theorem gate_run (h : s.gate req = .run) : s.keeps req = true ∧ requireToken s.apiToken req = .run := by
  rw [Server.gate] at h
  split at h
  · rename_i hkeep
    exact ⟨hkeep, h⟩
  · split at h
    · cases h
    · split at h
      · cases h
      · split at h <;> cases h

theorem Sent.forward {url : String} {req' : Request} (hs : Sent q req) (h : s.gate req = .forward url req') : Sent q req' := by
  obtain ⟨-, hfresh, rfl⟩ := gate_forward h
  rcases hs with rfl | ⟨inst, rfl⟩
  · exact .inr ⟨_, rfl⟩
  · rw [forwarded_passedOn] at hfresh
    cases hfresh

/-- What a handler may rely on. -/
theorem Sent.run (hs : Sent q req) (h : s.gate req = .run) :
    (q.method.reads = false → "/api/".toList <+: q.path.toList → ∀ store, s.store = some store → store.role = .leader) ∧
    (s.apiToken ≠ "" → guarded q.method q.path = true → q.presented = some s.apiToken) := by
  obtain ⟨hkeep, htoken⟩ := gate_run h
  have hsame : req.method = q.method ∧ req.path = q.path ∧ req.presented = q.presented := by
    rcases hs with rfl | ⟨inst, rfl⟩
    · exact ⟨rfl, rfl, rfl⟩
    · exact ⟨rfl, rfl, presented_passedOn q inst⟩
  rw [requireToken_run, hsame.1, hsame.2.1, hsame.2.2] at htoken
  rw [Server.keeps, hsame.1, hsame.2.1] at hkeep
  constructor
  · intro hwrite hapi store hstore
    rw [hstore] at hkeep
    have hor : ¬ "/api/".toList <+: q.path.toList ∨ store.role = .leader := by simpa [hwrite] using hkeep
    exact hor.resolve_left (not_not_intro hapi)
  · intro hset hguard
    simpa [hset, hguard] using htoken

/-! ## The run -/

namespace Gateway

variable {w : Gateway}

/-- Where every request is. -/
def places (w : Gateway) : List Nat := w.flights.map (·.id) ++ w.ran.map (·.id) ++ w.answered.map Prod.fst

/-- Every request is at one place, as it was asked or sent on once. -/
structure Routed (w : Gateway) : Prop where
  places : w.places.Perm (List.range w.asked.length)
  flights : ∀ f ∈ w.flights, ∃ q, w.asked[f.id]? = some q ∧ Sent q f.req
  ran : ∀ x ∈ w.ran, ∃ q, w.asked[x.id]? = some q ∧ Sent q x.req ∧ x.server.gate x.req = .run

theorem perm_eraseIdx {n : Nat} {f : Flight} (h : w.flights[n]? = some f) :
    (f :: w.flights.eraseIdx n).Perm w.flights := by
  obtain ⟨hn, rfl⟩ := List.getElem?_eq_some_iff.mp h
  exact List.getElem_cons_eraseIdx_perm hn

theorem places_taken {n : Nat} {f : Flight} (h : w.flights[n]? = some f) :
    (f.id :: (w.flights.eraseIdx n).map (·.id) ++ w.ran.map (·.id) ++ w.answered.map Prod.fst).Perm w.places :=
  (((perm_eraseIdx h).map (·.id)).append_right _).append_right _

theorem mem_of_taken {n : Nat} {f x : Flight} (h : w.flights[n]? = some f) (hx : x ∈ f :: w.flights.eraseIdx n) :
    x ∈ w.flights := (perm_eraseIdx h).subset hx

theorem Routed.ask (h : Routed w) (url : String) (req : Request) : Routed (w.step (.ask url req)) := by
  have hold : ∀ {i q}, w.asked[i]? = some q → (w.asked ++ [req])[i]? = some q := fun hq => by
    rw [List.getElem?_append_left (List.getElem?_eq_some_iff.mp hq).1, hq]
  refine ⟨?_, fun f hf => ?_, fun x hx => ?_⟩
  · show (w.asked.length :: w.places).Perm (List.range (w.asked ++ [req]).length)
    rw [List.length_append, List.length_singleton, List.range_succ]
    exact (h.places.cons _).trans (List.perm_append_singleton ..).symm
  · rcases List.mem_cons.mp hf with rfl | hf
    · exact ⟨req, by simp [step], .inl rfl⟩
    · obtain ⟨q, hq, hs⟩ := h.flights f hf
      exact ⟨q, hold hq, hs⟩
  · obtain ⟨q, hq, hs⟩ := h.ran x hx
    exact ⟨q, hold hq, hs⟩

theorem Routed.answer (h : Routed w) {n : Nat} {f : Flight} (hf : w.flights[n]? = some f) (status : Nat) :
    Routed { w with flights := w.flights.eraseIdx n, answered := (f.id, status) :: w.answered } := by
  refine ⟨?_, fun x hx => h.flights x (mem_of_taken hf (List.mem_cons_of_mem _ hx)), h.ran⟩
  exact List.perm_middle.trans ((places_taken hf).trans h.places)

theorem Routed.forward (h : Routed w) {n : Nat} {f : Flight} (hf : w.flights[n]? = some f) (url : String) {req' : Request}
    (hs : ∀ q, Sent q f.req → Sent q req') :
    Routed { w with flights := { id := f.id, url := url, req := req' } :: w.flights.eraseIdx n } := by
  refine ⟨(places_taken hf).trans h.places, fun x hx => ?_, h.ran⟩
  rcases List.mem_cons.mp hx with rfl | hx
  · obtain ⟨q, hq, hsent⟩ := h.flights f (mem_of_taken hf (List.mem_cons_self ..))
    exact ⟨q, hq, hs q hsent⟩
  · exact h.flights x (mem_of_taken hf (List.mem_cons_of_mem _ hx))

theorem Routed.run (h : Routed w) {n : Nat} {f : Flight} (hf : w.flights[n]? = some f) {s : Server}
    (hg : s.gate f.req = .run) :
    Routed { w with flights := w.flights.eraseIdx n, ran := { id := f.id, server := s, req := f.req } :: w.ran } := by
  refine ⟨?_, fun x hx => h.flights x (mem_of_taken hf (List.mem_cons_of_mem _ hx)), fun x hx => ?_⟩
  · refine List.Perm.trans ?_ ((places_taken hf).trans h.places)
    exact List.perm_middle.append_right _
  · rcases List.mem_cons.mp hx with rfl | hx
    · obtain ⟨q, hq, hsent⟩ := h.flights f (mem_of_taken hf (List.mem_cons_self ..))
      exact ⟨q, hq, hsent, hg⟩
    · exact h.ran x hx

theorem routed_step (h : Routed w) (m : Move) : Routed (w.step m) := by
  cases m with
  | turn url s => exact ⟨h.places, h.flights, h.ran⟩
  | ask url req => exact h.ask url req
  | lose n =>
    rw [step]
    split
    · exact h
    · rename_i f hf
      exact h.answer hf 502
  | arrive n =>
    rw [step, arrive]
    split
    · exact h
    · rename_i f hf
      dsimp only
      split
      · exact h.answer hf 502
      · split
        · rename_i hg
          exact h.run hf hg
        · exact h.answer hf _
        · rename_i hg
          exact h.forward hf _ fun q hs => hs.forward hg

theorem routed_run (moves : List Move) : Routed (run moves) := by
  induction moves using List.reverseRecOn with
  | nil => exact ⟨.refl _, fun f hf => (by cases hf), fun x hx => (by cases hx)⟩
  | append_singleton moves m ih =>
    rw [run, List.foldl_append]
    exact routed_step ih m

end Gateway

end StormStorage.Api
