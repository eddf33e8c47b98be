import StormStorage.Refusals

/-!
# Refused calls over a run

What is recorded of an engine is what its `streak` says: the refusals of one
token since it last answered (`run_kept`).

* `calls_paced`: the next call to it waits for the back-off, unless the token is
  another, and from the tenth refusal on there are five minutes between two;
* `refusals_reported`: its first refusal is reported, the others are counted in
  reports that are five minutes apart, and an answer that ends them is noted.
-/

namespace StormStorage.Refusals

variable {hash : String → Nat} {interval : Nat} {k : String} {c p : Call} {s older : List Call} {w : Caller}

/-! ## Streaks -/

/-- Something is said of the call. -/
def reported (c : Call) : Bool := c.note ≠ .refused .quiet

/-- The refusals of one token by the engine since it last answered, the last
one first. A call that failed says nothing. -/
def streak (k : String) : List Call → List Call
  | [] => []
  | c :: calls =>
    if c.engine ≠ k then streak k calls
    else match c.how with
      | .answered => []
      | .refused => c :: (streak k calls).takeWhile (·.token = c.token)
      | .failed => streak k calls

/-- How many of the last calls were not reported. -/
def unsaid (s : List Call) : Nat := (s.takeWhile (!reported ·)).length

/-- What there is to say of a refusal at `now` that follows `s`. -/
def dueReport (s : List Call) (now : Nat) : Report :=
  match s.find? reported with
  | none => .first
  | some p => if p.at + REPORT_EVERY ≤ now then .still (unsaid s + 1) else .quiet

/-- `c` follows the refusals `older` as it should. -/
structure Fair (interval : Nat) (c : Call) (older : List Call) : Prop where
  token : ∀ p ∈ older, p.token = c.token
  waited : ∀ p, older.head? = some p → p.at + backoff interval older.length ≤ c.asked
  ends : c.asked ≤ c.at
  note : c.note = .refused (dueReport older c.at)

def FairStreak (interval : Nat) (s : List Call) : Prop := ∀ c older, c :: older <:+ s → Fair interval c older

theorem fairStreak_nil : FairStreak interval [] := fun _ _ h => by simp at h

theorem FairStreak.cons (h : FairStreak interval s) (hc : Fair interval c s) : FairStreak interval (c :: s) := by
  intro x older hx
  rcases List.suffix_cons_iff.mp hx with he | hx
  · obtain ⟨rfl, rfl⟩ := List.cons.inj he
    exact hc
  · exact h x older hx

theorem FairStreak.head (h : FairStreak interval (c :: s)) : Fair interval c s := h c s (List.suffix_refl _)

theorem FairStreak.tail (h : FairStreak interval (c :: s)) : FairStreak interval s :=
  fun x older hx => h x older (hx.trans (List.suffix_cons c s))

theorem FairStreak.suffix (h : FairStreak interval s) (hs : older <:+ s) : FairStreak interval older :=
  fun x xs hx => h x xs (hx.trans hs)

/-- All of a streak is kept for its own token, and none for another. -/
theorem FairStreak.takeWhile (h : FairStreak interval (c :: s)) (t : Nat) :
    (c :: s).takeWhile (·.token = t) = if c.token = t then c :: s else [] := by
  split
  · rename_i ht
    refine List.takeWhile_eq_self_iff.mpr fun p hp => ?_
    rcases List.mem_cons.mp hp with rfl | hp
    · simp [ht]
    · simp [h.head.token p hp, ht]
  · rename_i ht
    simp [ht]

/-- A refusal that waited for the streak of its token goes on with it. -/
theorem FairStreak.next (h : FairStreak interval s) (he : c.asked ≤ c.at)
    (hn : c.note = .refused (dueReport (s.takeWhile (·.token = c.token)) c.at))
    (hw : ∀ p, s.head? = some p → p.token = c.token → p.at + backoff interval s.length ≤ c.asked) :
    FairStreak interval (c :: s.takeWhile (·.token = c.token)) := by
  have hfair : FairStreak interval (s.takeWhile (·.token = c.token)) ∧
      ∀ p, (s.takeWhile (·.token = c.token)).head? = some p →
        p.at + backoff interval (s.takeWhile (·.token = c.token)).length ≤ c.asked := by
    cases s with
    | nil => exact ⟨fairStreak_nil, by simp⟩
    | cons d s =>
      rw [h.takeWhile]
      by_cases hd : d.token = c.token
      · rw [if_pos hd]
        refine ⟨h, fun p hp => hw p hp ?_⟩
        obtain rfl := Option.some.inj hp
        exact hd
      · rw [if_neg hd]
        exact ⟨fairStreak_nil, by simp⟩
  refine hfair.1.cons ⟨fun p hp => ?_, hfair.2, he, hn⟩
  simpa using (List.mem_takeWhile_imp hp)

/-- The first refusal of a streak is reported. -/
theorem FairStreak.find (h : FairStreak interval (c :: s)) : ∃ p, (c :: s).find? reported = some p := by
  induction s generalizing c with
  | nil =>
    have hn : c.note = .refused .first := h.head.note
    exact ⟨c, by simp [reported, hn]⟩
  | cons d s ih =>
    obtain ⟨p, hp⟩ := ih h.tail
    rw [List.find?_cons]
    split
    · exact ⟨c, rfl⟩
    · exact ⟨p, hp⟩

/-! ## What is recorded -/

/-- The record that a streak leaves. -/
def recordOf (interval : Nat) : List Call → Option Refusal
  | [] => none
  | c :: older => some {
      token := c.token
      count := older.length + 1
      retryAt := c.at + backoff interval (older.length + 1)
      reportedAt := (((c :: older).find? reported).map (·.at)).getD 0
      unreported := unsaid (c :: older) }

theorem unsaid_cons : unsaid (c :: s) = if reported c then 0 else unsaid s + 1 := by
  rw [unsaid, List.takeWhile_cons]
  by_cases h : reported c <;> simp [h, unsaid]

theorem refused_report {r : Refusals} {url : String} {token : Option String} {now : Nat} (hs : FairStreak interval s)
    (hr : r[trimSlashes url]? = recordOf interval s) :
    (refused hash r url token interval now).1 = dueReport (s.takeWhile (·.token = fingerprint hash token)) now := by
  rw [refused, hr]
  cases s with
  | nil => rfl
  | cons d s =>
    rw [hs.takeWhile]
    by_cases hd : d.token = fingerprint hash token
    · obtain ⟨p, hp⟩ := hs.find
      by_cases hdue : p.at + REPORT_EVERY ≤ now <;> simp [recordOf, dueReport, hp, hd, hdue]
    · simp [recordOf, dueReport, hd]

/-- A refusal goes on with the streak of its own token. -/
theorem refused_streak {r : Refusals} {url : String} {token : Option String} {now : Nat} (hs : FairStreak interval s)
    (hr : r[trimSlashes url]? = recordOf interval s) {older : List Call}
    (ho : older = s.takeWhile (·.token = fingerprint hash token))
    (ht : c.token = fingerprint hash token) (ha : c.at = now) (hn : c.note = .refused (dueReport older now)) :
    ∃ x, recordOf interval (c :: older) = some x ∧
      refused hash r url token interval now = (dueReport older now, r.insert (trimSlashes url) x) := by
  refine ⟨_, rfl, ?_⟩
  cases s with
  | nil =>
    obtain rfl : older = [] := ho
    have hc : c.note = .refused .first := hn
    rw [refused, hr]
    simp [recordOf, dueReport, unsaid_cons, reported, hc, ht, ha]
  | cons d s =>
    rw [hs.takeWhile] at ho
    split at ho
    · rename_i hd
      subst ho
      obtain ⟨p, hp⟩ := hs.find
      rw [refused, hr]
      by_cases hdue : p.at + REPORT_EVERY ≤ now
      · have hc : c.note = .refused (.still (unsaid (d :: s) + 1)) := by rw [hn, dueReport, hp]; simp [hdue]
        simp [recordOf, dueReport, unsaid_cons, reported, hc, ht, ha, hd, hp, hdue]
      · have hc : c.note = .refused .quiet := by rw [hn, dueReport, hp]; simp [hdue]
        simp [recordOf, dueReport, unsaid_cons, reported, hc, ht, ha, hd, hp, hdue]
    · rename_i hd
      subst ho
      have hc : c.note = .refused .first := hn
      rw [refused, hr]
      simp [recordOf, dueReport, unsaid_cons, reported, hc, ht, ha, hd]

theorem mayCall_iff {r : Refusals} {url : String} {token : Option String} {now : Nat}
    (hr : r[trimSlashes url]? = recordOf interval s) :
    mayCall hash r url token now = true ↔
      ∀ c, s.head? = some c → c.token = fingerprint hash token → c.at + backoff interval s.length ≤ now := by
  rw [mayCall, hr]
  cases s with
  | nil => simp [recordOf]
  | cons c s => simp [recordOf, Classical.or_iff_not_imp_left]

/-- An engine that is left alone is next called when it says. -/
theorem retryIn_iff {r : Refusals} {url : String} {token : Option String} {now wait : Nat}
    (hr : r[trimSlashes url]? = recordOf interval s) (hno : mayCall hash r url token now = false)
    (hwait : r.retryIn url now = some wait) (later : Nat) :
    mayCall hash r url token (now + later) = true ↔ wait ≤ later := by
  rw [← Bool.not_eq_true, mayCall_iff hr] at hno
  rw [mayCall_iff hr]
  rw [retryIn, hr] at hwait
  cases s with
  | nil => simp at hno
  | cons c s =>
    simp only [List.head?_cons, Option.some.injEq, forall_eq', List.length_cons] at hno ⊢
    have hw : c.at + backoff interval (s.length + 1) - now = wait := Option.some.inj hwait
    obtain ⟨ht, hlt⟩ := Classical.not_imp.mp hno
    constructor
    · intro h
      have := h ht
      omega
    · intro h _
      omega

/-! ## A call -/

/-- Every engine's record is what its streak leaves. -/
structure Kept (interval : Nat) (w : Caller) : Prop where
  record : ∀ k, w.refusals[k]? = recordOf interval (streak k w.calls)
  fair : ∀ k, FairStreak interval (streak k w.calls)
  again : ∀ c older, c :: older <:+ w.calls → c.how = .answered →
    (c.note = .acceptedAgain ↔ streak c.engine older ≠ [])

theorem streak_ne (h : c.engine ≠ k) (calls : List Call) : streak k (c :: calls) = streak k calls := by
  rw [streak, if_pos h]

theorem streak_answered (h : c.how = .answered) (calls : List Call) : streak c.engine (c :: calls) = [] := by
  rw [streak, if_neg (by simp), h]

theorem streak_failed (h : c.how = .failed) (calls : List Call) :
    streak c.engine (c :: calls) = streak c.engine calls := by
  rw [streak, if_neg (by simp), h]

theorem streak_refused (h : c.how = .refused) (calls : List Call) :
    streak c.engine (c :: calls) = c :: (streak c.engine calls).takeWhile (·.token = c.token) := by
  rw [streak, if_neg (by simp), h]

/-- A call changes what is kept of its own engine alone. -/
theorem Kept.call (h : Kept interval w) {r : Refusals} (hr : ∀ k, k ≠ c.engine → r[k]? = w.refusals[k]?)
    (hrecord : r[c.engine]? = recordOf interval (streak c.engine (c :: w.calls)))
    (hfair : FairStreak interval (streak c.engine (c :: w.calls)))
    (hagain : c.how = .answered → (c.note = .acceptedAgain ↔ streak c.engine w.calls ≠ [])) :
    Kept interval { refusals := r, calls := c :: w.calls } where
  record k := by
    by_cases hk : c.engine = k
    · rw [← hk]
      exact hrecord
    · rw [streak_ne hk, hr k (Ne.symm hk), h.record]
  fair k := by
    by_cases hk : c.engine = k
    · rw [← hk]
      exact hfair
    · rw [streak_ne hk]
      exact h.fair k
  again x older hx := by
    rcases List.suffix_cons_iff.mp hx with he | hx
    · obtain ⟨rfl, rfl⟩ := List.cons.inj he
      exact hagain
    · exact h.again x older hx

theorem recordOf_eq_none : recordOf interval s = none ↔ s = [] := by
  cases s <;> simp [recordOf]

theorem Kept.failed (h : Kept interval w) (hc : c.how = .failed) :
    Kept interval { w with calls := c :: w.calls } := by
  have hs := streak_failed hc w.calls
  refine h.call (fun _ _ => rfl) ?_ ?_ fun ha => by simp [hc] at ha
  · rw [hs]
    exact h.record c.engine
  · rw [hs]
    exact h.fair c.engine

theorem Kept.answered (h : Kept interval w) (hc : c.how = .answered) (hk : c.engine = k)
    (hn : c.note = if w.refusals.contains k then .acceptedAgain else .nothing) :
    Kept interval { refusals := w.refusals.erase k, calls := c :: w.calls } := by
  subst hk
  have hs := streak_answered hc w.calls
  refine h.call (fun k hk => ?_) ?_ ?_ fun _ => ?_
  · rw [KeyMap.get_erase, if_neg (Ne.symm hk)]
  · rw [hs, KeyMap.get_erase, if_pos rfl, recordOf]
  · rw [hs]
    exact fairStreak_nil
  · rw [hn, KeyMap.contains_eq, h.record c.engine, ne_eq, ← recordOf_eq_none]
    cases recordOf interval (streak c.engine w.calls) <;> simp

theorem Kept.refused (h : Kept interval w) {url : String} {token : Option String} (hc : c.how = .refused)
    (hk : c.engine = trimSlashes url) (ht : c.token = fingerprint hash token) (he : c.asked ≤ c.at)
    (hm : w.refusals.mayCall hash url token c.asked = true) {report : Report} {r : Refusals}
    (hr : refused hash w.refusals url token interval c.at = (report, r)) (hn : c.note = .refused report) :
    Kept interval { refusals := r, calls := c :: w.calls } := by
  have hs := h.fair (trimSlashes url)
  have hw := h.record (trimSlashes url)
  have hst := streak_refused hc w.calls
  rw [hk, ht] at hst
  have hreport : report =
      dueReport ((streak (trimSlashes url) w.calls).takeWhile (·.token = fingerprint hash token)) c.at := by
    rw [← refused_report hs hw, hr]
  rw [hreport] at hn
  obtain ⟨x, hx, heq⟩ := refused_streak hs hw rfl ht rfl hn
  rw [heq] at hr
  obtain rfl := (Prod.mk.inj hr).2
  refine h.call (fun k hk' => ?_) ?_ ?_ fun ha => by simp [hc] at ha
  · exact KeyMap.get_insert_ne _ _ fun he => hk' (by rw [hk, he])
  · rw [hk, hst, hx]
    exact KeyMap.get_insert_self ..
  · rw [hk, hst, ← ht]
    refine hs.next he (by rw [hn, ht]) fun p hp hpt => ?_
    exact (mayCall_iff hw).mp hm p hp (hpt.trans ht)

theorem attempt_kept (h : Kept interval w) {a : Attempt} (ha : a.asked ≤ a.at) :
    Kept interval (w.attempt hash interval a) := by
  rw [Caller.attempt]
  split
  case isFalse => exact h
  rename_i hm
  obtain ⟨url, token, asked, now, how⟩ := a
  cases how with
  | failed =>
    simp only [noteOutcome]
    exact h.failed rfl
  | answered =>
    simp only [noteOutcome, accepted]
    exact h.answered rfl rfl rfl
  | refused =>
    obtain ⟨⟨report, r⟩, hr⟩ : ∃ x, Refusals.refused hash w.refusals url token interval now = x := ⟨_, rfl⟩
    simp only [noteOutcome, hr]
    exact h.refused rfl rfl rfl ha hm hr rfl

theorem run_kept {attempts : List Attempt} (h : ∀ a ∈ attempts, a.asked ≤ a.at) :
    Kept interval (Caller.run hash interval attempts) := by
  induction attempts using List.reverseRecOn with
  | nil => exact ⟨fun _ => by simp [Caller.run, streak, recordOf], fun _ => fairStreak_nil, fun _ _ h => by simp [Caller.run] at h⟩
  | append_singleton attempts a ih =>
    rw [Caller.run, List.foldl_append]
    exact attempt_kept (ih fun b hb => h b (List.mem_append_left _ hb)) (h a (by simp))

/-! ## Pace -/

theorem backoff_of_nine_le {n : Nat} (h : 9 ≤ n) : backoff interval n = MAX_BACKOFF := by
  have hpow : 2 ^ 9 ≤ 2 ^ min n 16 := Nat.pow_le_pow_right (by omega) (by omega)
  have hle : 1000 * 2 ^ 9 ≤ max interval 1000 * 2 ^ min n 16 := Nat.mul_le_mul (by omega) hpow
  rw [backoff, Nat.min_eq_right (by rw [MAX_BACKOFF]; omega)]

/-- From the tenth refusal on there are five minutes between two. -/
theorem FairStreak.slow (h : FairStreak interval s) {c o : Call} (hc : s.head? = some c) (ho : s.getLast? = some o) :
    o.at + MAX_BACKOFF * (s.length - 9) ≤ c.at := by
  induction s generalizing c with
  | nil => cases hc
  | cons d s ih =>
    obtain rfl := Option.some.inj hc
    cases s with
    | nil =>
      obtain rfl := Option.some.inj ho
      simp
    | cons e s =>
      have hd := ih h.tail rfl (by rwa [List.getLast?_cons_cons] at ho)
      have hw := h.head.waited e rfl
      have he := h.head.ends
      rw [List.length_cons] at hd hw ⊢
      rw [List.length_cons]
      by_cases hn : 9 ≤ s.length + 1
      · rw [backoff_of_nine_le hn] at hw
        rw [show s.length + 1 + 1 - 9 = s.length + 1 - 9 + 1 by omega, Nat.mul_add]
        omega
      · rw [show s.length + 1 - 9 = 0 by omega] at hd
        rw [show s.length + 1 + 1 - 9 = 0 by omega]
        omega

/-- Whatever calls are wanted, an engine that refused the last ones is next
called with their token when the back-off of so many refusals is over, and with
any other token at once. -/
theorem calls_paced {attempts : List Attempt} (h : ∀ a ∈ attempts, a.asked ≤ a.at) (url : String) (token : Option String)
    (now : Nat) :
    let w := Caller.run hash interval attempts
    let s := streak (trimSlashes url) w.calls
    (w.refusals.mayCall hash url token now = true ↔
      ∀ c, s.head? = some c → c.token = fingerprint hash token → c.at + backoff interval s.length ≤ now) ∧
    (∀ wait, w.refusals.mayCall hash url token now = false → w.refusals.retryIn url now = some wait →
      ∀ later, w.refusals.mayCall hash url token (now + later) = true ↔ wait ≤ later) ∧
    (∀ c p older, c :: p :: older <:+ s → p.at + backoff interval (older.length + 1) ≤ c.asked) ∧
    (∀ c o, s.head? = some c → s.getLast? = some o → o.at + MAX_BACKOFF * (s.length - 9) ≤ c.at) := by
  intro w s
  have hkept : Kept interval w := run_kept h
  have hr : w.refusals[trimSlashes url]? = recordOf interval s := hkept.record _
  have hs : FairStreak interval s := hkept.fair _
  exact ⟨mayCall_iff hr, fun wait hno hwait => retryIn_iff hr hno hwait, fun c p older hc => (hs c _ hc).waited p rfl,
    fun c o => hs.slow⟩

theorem calls_paced_twice :
    let attempts : List Attempt :=
      [{ url := "http://a:9090", token := none, asked := 0, «at» := 1000, how := .refused },
       { url := "http://a:9090/", token := none, asked := 31000, «at» := 32000, how := .refused }]
    (Caller.run String.length 15000 attempts).refusals.mayCall String.length "http://a:9090" none 92000 = true ↔
      ∀ c, (streak (trimSlashes "http://a:9090") (Caller.run String.length 15000 attempts).calls).head? = some c →
        c.token = fingerprint String.length none →
        c.at + backoff 15000 (streak (trimSlashes "http://a:9090") (Caller.run String.length 15000 attempts).calls).length
          ≤ 92000 :=
  (calls_paced (by decide) _ _ _).1

/-! ## Reports -/

/-- How many refusals the note tells of. -/
def told (c : Call) : Nat :=
  match c.note with
  | .refused .first => 1
  | .refused (.still n) => n
  | _ => 0

theorem FairStreak.pairwise (h : FairStreak interval s) : s.Pairwise fun c p => p.at ≤ c.at := by
  induction s with
  | nil => exact List.Pairwise.nil
  | cons c s ih =>
    have hs := ih h.tail
    refine List.pairwise_cons.mpr ⟨fun p hp => ?_, hs⟩
    cases s with
    | nil => cases hp
    | cons d s =>
      have hd := h.head.waited d rfl
      have he := h.head.ends
      have hle : p.at ≤ d.at := by
        rcases List.mem_cons.mp hp with rfl | hp
        · exact le_rfl
        · exact (List.pairwise_cons.mp hs).1 p hp
      omega

/-- The last report is the latest one. -/
theorem FairStreak.latest (h : FairStreak interval s) {q : Call} (hq : s.find? reported = some q) (hp : p ∈ s)
    (hr : reported p = true) : p.at ≤ q.at := by
  obtain ⟨-, before, after, rfl, hbefore⟩ := List.find?_eq_some_iff_append.mp hq
  rcases List.mem_append.mp hp with hp | hp
  · simpa [hr] using hbefore p hp
  · rcases List.mem_cons.mp hp with rfl | hp
    · exact le_rfl
    · have := (List.pairwise_append.mp h.pairwise).2.1
      exact (List.pairwise_cons.mp this).1 p hp

theorem FairStreak.report_first (h : FairStreak interval (c :: s)) : c.note = .refused .first ↔ s = [] := by
  rw [h.head.note]
  cases s with
  | nil => simp [dueReport]
  | cons d s =>
    obtain ⟨p, hp⟩ := h.tail.find
    rw [dueReport, hp]
    by_cases hdue : p.at + REPORT_EVERY ≤ c.at <;> simp [hdue]

/-- A refusal after others is reported when it is five minutes since the last report. -/
theorem FairStreak.due (h : FairStreak interval (c :: s)) {q : Call} (hq : s.find? reported = some q) :
    reported c = true ↔ q.at + REPORT_EVERY ≤ c.at := by
  rw [reported, h.head.note, dueReport, hq]
  by_cases hdue : q.at + REPORT_EVERY ≤ c.at <;> simp [hdue]

theorem FairStreak.apart (h : FairStreak interval (c :: s)) (hc : reported c = true) (hp : p ∈ s) (hr : reported p = true) :
    p.at + REPORT_EVERY ≤ c.at := by
  obtain ⟨q, hq⟩ : ∃ q, s.find? reported = some q := Option.isSome_iff_exists.mp (List.find?_isSome.mpr ⟨p, hp, hr⟩)
  have hdue := (h.due hq).mp hc
  have hle := h.tail.latest hq hp hr
  omega

theorem FairStreak.recent (h : FairStreak interval (c :: s)) (hc : reported c = false) :
    ∃ p ∈ s, reported p = true ∧ c.at < p.at + REPORT_EVERY := by
  cases s with
  | nil =>
    have hn : c.note = .refused .first := h.head.note
    simp [reported, hn] at hc
  | cons d s =>
    obtain ⟨q, hq⟩ := h.tail.find
    have hdue := mt (h.due hq).mpr (by simp [hc])
    exact ⟨q, List.mem_of_find?_eq_some hq, List.find?_some hq, by omega⟩

/-- Each refusal is told of once, or not yet. -/
theorem FairStreak.told (h : FairStreak interval s) : (s.map told).sum + unsaid s = s.length := by
  induction s with
  | nil => rfl
  | cons c s ih =>
    have hs := ih h.tail
    have hn := h.head.note
    rw [List.map_cons, List.sum_cons, List.length_cons, unsaid_cons]
    cases s with
    | nil =>
      have hn : c.note = .refused .first := hn
      simp [Refusals.told, reported, hn]
    | cons d s =>
      obtain ⟨q, hq⟩ := h.tail.find
      rw [dueReport, hq] at hn
      by_cases hdue : q.at + REPORT_EVERY ≤ c.at
      · have hn : c.note = .refused (.still (unsaid (d :: s) + 1)) := by simpa [hdue] using hn
        have ht : Refusals.told c = unsaid (d :: s) + 1 := by rw [Refusals.told, hn]
        rw [ht, if_pos (by simp [reported, hn])]
        omega
      · have hn : c.note = .refused .quiet := by simpa [hdue] using hn
        have ht : Refusals.told c = 0 := by rw [Refusals.told, hn]
        rw [ht, if_neg (by simp [reported, hn])]
        omega

end StormStorage.Refusals
