import StormStorage.Addresses

/-!
# Addresses that agree

* `deleteDrive_addressed`: no drive is addressed by the URI it was opened
  with, since the query the URI carries is taken for the request's own;
* `engineUrl_agrees_iff`: an announced host is read back alike everywhere
  exactly when it is not an IPv6 address.
-/

namespace StormStorage

open Url

/-! ## A drive by its URI -/

/-- The request names this drive, and asks for force as it should. -/
structure Addressed (e : Engine) (leg : AttachedLeg) (force : Bool) : Prop where
  segment : percentDecode (lastSegment (path (e.deleteDriveUrl leg.driveUri force).toList)) = utf8 leg.driveUri.toList
  query : Carries (e.deleteDriveUrl leg.driveUri force).toList "force=true".toList ↔ force = true

theorem takeWhile_append_stop {α : Type} {p : α → Bool} {s t : List α} {c : α} (hs : ∀ x ∈ s, p x) (hc : ¬ p c) :
    (s ++ c :: t).takeWhile p = s := by
  rw [List.takeWhile_append_of_pos hs, List.takeWhile_cons_of_neg hc, List.append_nil]

/-- A text cut before the first character that ends a path. -/
theorem exists_cut {s : List Char} (h : ∃ c ∈ s, EndsPath c) :
    ∃ t c r, s = t ++ c :: r ∧ EndsPath c ∧ ∀ x ∈ t, ¬ EndsPath x := by
  induction s with
  | nil => simp at h
  | cons a s ih =>
    by_cases ha : EndsPath a
    · exact ⟨[], a, s, rfl, ha, by simp⟩
    · obtain ⟨c, hc, he⟩ := h
      have hin : c ∈ s := (List.mem_cons.mp hc).resolve_left fun hca => ha (hca ▸ he)
      obtain ⟨t, c', r, rfl, he', ht⟩ := ih ⟨c, hin, he⟩
      refine ⟨a :: t, c', r, rfl, he', ?_⟩
      simpa [ha] using ht

theorem question_mem_driveUri (leg : AttachedLeg) : '?' ∈ leg.driveUri.toList := by
  unfold AttachedLeg.driveUri
  cases leg.hostNqn <;> simp [toString]

theorem mem_dropWhile_ne {c : Char} {s : List Char} (h : c ∈ s) : c ∈ s.dropWhile (· ≠ c) := by
  induction s with
  | nil => cases h
  | cons a s ih =>
    by_cases ha : a = c
    · simp [ha]
    · rw [List.dropWhile_cons_of_pos (by simpa using ha)]
      exact ih ((List.mem_cons.mp h).resolve_left (Ne.symm ha))

theorem toList_deleteDriveUrl (e : Engine) (s : String) (force : Bool) : (e.deleteDriveUrl s force).toList =
    e.url.toList ++ "/api/v1/drives/".toList ++ escape s.toList ++ (if force then "?force=true" else "").toList := by
  simp only [Engine.deleteDriveUrl, String.toList_append, String.toList_ofList]
  rfl

/-- A path ends where its URL's own last segment does. -/
theorem lastSegment_path {base e : List Char} {c : Char} {t : List Char} (hbase : ∀ x ∈ base, ¬ EndsPath x)
    (he : ∀ x ∈ e, x ≠ '/' ∧ ¬ EndsPath x) (hc : EndsPath c) :
    lastSegment (path (base ++ "/api/v1/drives/".toList ++ e ++ c :: t)) = e := by
  have hslash : '/' ∉ e := fun h => (he _ h).1 rfl
  have hlit : ∀ x ∈ "/api/v1/drives/".toList, ¬ EndsPath x := by simp [EndsPath]
  have hcut : (base ++ "/api/v1/drives/".toList ++ e ++ c :: t).takeWhile (¬ EndsPath ·) =
      base ++ "/api/v1/drives".toList ++ '/' :: e := by
    rw [takeWhile_append_stop ?_ (by simpa using hc)]
    · have hsplit : "/api/v1/drives/".toList = "/api/v1/drives".toList ++ ['/'] := by decide
      rw [hsplit]
      simp
    · intro x hx
      rcases List.mem_append.mp hx with hx | hx
      · rcases List.mem_append.mp hx with hx | hx
        · simpa using hbase x hx
        · simpa using hlit x hx
      · simpa using (he x hx).2
  unfold path
  rw [hcut]
  cases hb : breakScheme (base ++ "/api/v1/drives".toList ++ '/' :: e) with
  | none =>
    dsimp only
    rw [hb]
    exact lastSegment_of_not_mem hslash
  | some p =>
    obtain ⟨s, r⟩ := p
    have hwhole := breakScheme_eq hb
    have hlast : lastSegment (s ++ "://".toList ++ r) = e := by rw [← hwhole, lastSegment_of_not_mem hslash]
    have hr : '/' ∈ r := by
      by_contra hno
      have hsep : s ++ "://".toList ++ r = (s ++ ":/".toList) ++ '/' :: r := by simp
      rw [hsep] at hwhole hlast
      rw [lastSegment_of_not_mem hno] at hlast
      rw [hlast] at hwhole
      have hend := congrArg List.getLast? (List.append_cancel_right hwhole)
      simp at hend
    rw [lastSegment_append hr] at hlast
    have hdrop := mem_dropWhile_ne hr
    rw [← List.takeWhile_append_dropWhile (p := fun x => decide (x ≠ '/')) (l := r), lastSegment_append hdrop] at hlast
    dsimp only
    rw [hb]
    exact hlast

/-- No request to close a drive by its URI names that drive: its path ends
where the URI's query begins. -/
theorem deleteDrive_addressed (e : Engine) (hurl : ∀ c ∈ e.url.toList, ¬ EndsPath c) (leg : AttachedLeg)
    (force : Bool) : ¬ Addressed e leg force := by
  intro h
  obtain ⟨s, c, t, hs, hc, hno⟩ := exists_cut ⟨'?', question_mem_driveUri leg, .inl rfl⟩
  have hesc : escape (s ++ c :: t) = escape s ++ c :: escape t := by
    rw [escape_append, escape_cons, if_neg, if_neg]
    · rfl
    · rintro rfl
      exact absurd hc (by decide)
    · rintro rfl
      exact absurd hc (by decide)
  have hreq : (e.deleteDriveUrl leg.driveUri force).toList = e.url.toList ++ "/api/v1/drives/".toList ++ escape s ++
      c :: (escape t ++ (if force then "?force=true" else "").toList) := by
    rw [toList_deleteDriveUrl, hs, hesc]
    simp only [List.append_assoc, List.cons_append]
  have hclean : ∀ x ∈ escape s, x ≠ '/' ∧ ¬ EndsPath x := by
    intro x hx
    obtain ⟨hslash, hin | hin⟩ := mem_escape hx
    · exact ⟨hslash, hno x hin⟩
    · have hplain : ∀ y ∈ "%25F".toList, ¬ EndsPath y := by simp [EndsPath]
      exact ⟨hslash, hplain x hin⟩
  have hseg := h.segment
  rw [hreq, lastSegment_path hurl hclean hc, percentDecode_escape, hs] at hseg
  exact utf8_ne_append hseg

/-- A leg's drive on another engine. -/
def otherDrive : AttachedLeg := { nqn := "nqn.a", traddr := "10.0.0.2", trsvcid := 4420, nsid := 1 }

theorem deleteDrive_unaddressed : ¬ Addressed (Engine.new "http://10.0.0.1:9090" none) otherDrive false := by
  have hurl : (Engine.new "http://10.0.0.1:9090" none).url = "http://10.0.0.1:9090" := by decide +kernel
  exact deleteDrive_addressed _ (by simp [hurl, EndsPath]) _ _

/-- The drive's own query is the request's. -/
theorem deleteDrive_lost : ¬ Addressed (Engine.new "http://10.0.0.1:9090" none) otherDrive true := fun h =>
  absurd h.segment (by decide +kernel)

/-! ## Announced hosts -/

/-- What a host name or an IPv4 address is spelled with. -/
def IsNameChar (c : Char) : Prop := c.isAlphanum ∨ c = '-' ∨ c = '.' ∨ c = '_'

/-- What an IPv6 address is spelled with. -/
def IsIpv6Char (c : Char) : Prop := c.isAlphanum ∨ c = ':' ∨ c = '.' ∨ c = '%'

instance : DecidablePred IsNameChar := fun _ => inferInstanceAs (Decidable (_ ∨ _))

instance : DecidablePred IsIpv6Char := fun _ => inferInstanceAs (Decidable (_ ∨ _))

inductive Host where
  /-- A name or an IPv4 address. -/
  | name (text : String) (wf : text ≠ "" ∧ ∀ c ∈ text.toList, IsNameChar c)
  | ipv6 (text : String) (wf : ':' ∈ text.toList ∧ ∀ c ∈ text.toList, IsIpv6Char c)

def Host.text : Host → String
  | .name text _ => text
  | .ipv6 text _ => text

def Host.IsName : Host → Prop
  | .name .. => True
  | .ipv6 .. => False

/-- The schemes an address takes. -/
inductive Scheme where
  | http
  | https

def Scheme.text : Scheme → String
  | .http => "http"
  | .https => "https"

/-- What an engine announces: a host with or without a port, bare or in a full
URL. -/
structure Announcement where
  host : Host
  port : Option Nat
  /-- An IPv6 address stands in brackets; one with a port always does. -/
  brackets : Bool
  /-- The scheme of a full URL, and how many `/` end it. -/
  full : Option (Scheme × Nat)

def Announcement.hostText (a : Announcement) : String :=
  match a.host with
  | .name text _ => text
  | .ipv6 text _ => if a.brackets ∨ a.port.isSome then "[" ++ text ++ "]" else text

def portText : Option Nat → String
  | some port => ":" ++ String.ofList (Nat.toDigits 10 port)
  | none => ""

def Announcement.spelled (a : Announcement) : String :=
  let authority := a.hostText ++ portText a.port
  match a.full with
  | some (scheme, slashes) => scheme.text ++ "://" ++ authority ++ String.ofList (.replicate slashes '/')
  | none => authority

/-- The host is read back alike everywhere from the URL of the engine. -/
structure Agrees (a : Announcement) (scheme : Scheme) (token : Option String) : Prop where
  read : urlHost (engineUrlFrom a.spelled scheme.text) = a.host.text
  host : (Engine.new (engineUrlFrom a.spelled scheme.text) token).host = urlHost (engineUrlFrom a.spelled scheme.text)
  attach : ∀ t, t = "" ∨ t = "0.0.0.0" ∨ t = "::" →
    (Engine.new (engineUrlFrom a.spelled scheme.text) token).transportAddress t =
      urlHost (engineUrlFrom a.spelled scheme.text)

/-! ### Names -/

theorem IsNameChar.ne {c : Char} (h : IsNameChar c) : c ≠ ':' ∧ c ≠ '/' ∧ c ≠ '?' ∧ c ≠ '[' := by
  refine ⟨?_, ?_, ?_, ?_⟩ <;> rintro rfl <;> exact absurd h (by decide)

theorem isDigit_ne {c : Char} (h : c.isDigit) : c ≠ ':' ∧ c ≠ '/' ∧ c ≠ '?' := by
  refine ⟨?_, ?_, ?_⟩ <;> rintro rfl <;> exact absurd h (by decide)

theorem toList_portText (port : Option Nat) :
    (portText port).toList = (port.map fun p => ':' :: Nat.toDigits 10 p).getD [] := by
  cases port with
  | none => rfl
  | some p =>
    simp only [portText, String.toList_append, String.toList_ofList]
    rfl

theorem mem_portText {port : Option Nat} {c : Char} (h : c ∈ (portText port).toList) : c = ':' ∨ c.isDigit := by
  rw [toList_portText] at h
  cases port with
  | none => cases h
  | some p => exact (List.mem_cons.mp h).imp_right (Nat.isDigit_of_mem_toDigits (by decide) (by decide))

theorem cut_scheme (s : List Char) : cut "://".toList s = breakScheme s := by
  induction s with
  | nil => rfl
  | cons c s ih =>
    have hiff : "://".toList.isPrefixOf (c :: s) = true ↔ c = ':' ∧ ['/', '/'] <+: s := by
      rw [List.isPrefixOf_iff_prefix]
      show ':' :: ['/', '/'] <+: c :: s ↔ _
      rw [List.cons_prefix_cons, eq_comm]
    rw [cut, breakScheme, ih]
    by_cases h : c = ':' ∧ ['/', '/'] <+: s
    · rw [if_pos (hiff.mpr h), if_pos h]
      rfl
    · rw [if_neg fun hp => h (hiff.mp hp), if_neg h]

theorem cut_append {c : Char} {s t : List Char} (h : c ∉ s) : cut [c] (s ++ c :: t) = some (s, t) := by
  induction s with
  | nil => simp [cut]
  | cons a s ih =>
    rw [List.mem_cons, not_or] at h
    rw [List.cons_append, cut, if_neg (by simpa using h.1), ih h.2]
    rfl

theorem cut_eq_none {c : Char} {s : List Char} (h : c ∉ s) : cut [c] s = none := by
  induction s with
  | nil => rfl
  | cons a s ih =>
    rw [List.mem_cons, not_or] at h
    rw [cut, if_neg (by simpa using h.1), ih h.2]
    rfl

theorem trimStartMatches_of_not {start s : List Char} (h : ¬ start <+: s) (fuel : Nat) :
    Engine.trimStartMatches start fuel s = s := by
  cases fuel with
  | zero => rfl
  | succ n => rw [Engine.trimStartMatches, if_neg h]

theorem trimStart_of_not {start s : List Char} (h : ¬ start <+: s) : Engine.trimStart start s = s :=
  trimStartMatches_of_not h _

theorem trimStart_append {start s : List Char} (hne : start ≠ []) (h : ¬ start <+: s) :
    Engine.trimStart start (start ++ s) = s := by
  obtain ⟨n, hn⟩ : ∃ n, (start ++ s).length = n + 1 := by
    cases start with
    | nil => exact absurd rfl hne
    | cons a l => exact ⟨(l ++ s).length, rfl⟩
  rw [Engine.trimStart, hn, Engine.trimStartMatches, if_pos (List.prefix_append _ _), List.drop_left,
    trimStartMatches_of_not h]

/-- The scheme is trimmed from the start of a URL. -/
theorem trim_scheme (scheme : Scheme) {authority : List Char} (h : '/' ∉ authority) :
    Engine.trimStart "https://".toList
      (Engine.trimStart "http://".toList (scheme.text.toList ++ "://".toList ++ authority)) = authority := by
  have hno : ∀ start : List Char, '/' ∈ start → ¬ start <+: authority := fun start hs hp => h (hp.subset hs)
  cases scheme with
  | http =>
    show Engine.trimStart _ (Engine.trimStart _ ("http://".toList ++ authority)) = _
    rw [trimStart_append (by decide) (hno _ (by decide)), trimStart_of_not (hno _ (by decide))]
  | https =>
    have hs : ¬ "http://".toList <+: "https://".toList ++ authority := by
      rintro ⟨t, ht⟩
      have := congrArg (·[4]?) ht
      simp at this
    show Engine.trimStart _ (Engine.trimStart _ ("https://".toList ++ authority)) = _
    rw [trimStart_of_not hs, trimStart_append (by decide) (hno _ (by decide))]

section

variable {text : String} (hne : text ≠ "") (hname : ∀ c ∈ text.toList, IsNameChar c) (port : Option Nat)

include hname in
theorem slash_not_mem_authority : '/' ∉ text.toList ++ (portText port).toList := by
  intro h
  rcases List.mem_append.mp h with h | h
  · exact (hname _ h).ne.2.1 rfl
  · rcases mem_portText h with h | h
    · exact absurd h (by decide)
    · exact (isDigit_ne h).2.1 rfl

include hname in
theorem takeWhile_authority : (text.toList ++ (portText port).toList).takeWhile (fun c => c ≠ '/' ∧ c ≠ '?') =
    text.toList ++ (portText port).toList := by
  rw [List.takeWhile_eq_self_iff]
  intro c hc
  have hs : c ≠ '/' := fun he => slash_not_mem_authority hname port (he ▸ hc)
  have hq : c ≠ '?' := by
    rcases List.mem_append.mp hc with h | h
    · exact (hname c h).ne.2.2.1
    · rcases mem_portText h with rfl | h
      · decide
      · exact (isDigit_ne h).2.2
  simp [hq, hs]

include hname in
/-- The port of an authority is cut off at its last `:`. -/
theorem cut_authority : cut [':'] (text.toList ++ (portText port).toList).reverse =
    port.map fun p => ((Nat.toDigits 10 p).reverse, text.toList.reverse) := by
  rw [toList_portText]
  cases port with
  | none =>
    have hc : ':' ∉ (text.toList ++ []).reverse := by
      rw [List.append_nil, List.mem_reverse]
      exact fun h => (hname _ h).ne.1 rfl
    exact cut_eq_none hc
  | some p =>
    have hd : ':' ∉ (Nat.toDigits 10 p).reverse := fun h =>
      (isDigit_ne (Nat.isDigit_of_mem_toDigits (by decide) (by decide) (List.mem_reverse.mp h))).1 rfl
    rw [Option.map_some, Option.getD_some, List.reverse_append, List.reverse_cons, List.append_assoc]
    exact cut_append hd

include hne hname in
theorem urlHost_name (scheme : Scheme) : urlHost (scheme.text ++ "://" ++ (text ++ portText port)) = text := by
  have hslash := slash_not_mem_authority hname port
  have hscheme : ':' ∉ scheme.text.toList := by cases scheme <;> decide
  unfold urlHost
  simp only [cut_scheme, String.toList_append, breakScheme_append hscheme, breakScheme_eq_none hslash,
    takeWhile_authority hname port, cut_authority hname port]
  split
  · rename_i v6 hv
    obtain ⟨c, rest, hc⟩ := List.exists_cons_of_ne_nil (mt String.toList_eq_nil_iff.mp hne)
    rw [hc, List.cons_append, List.cons.injEq] at hv
    exact absurd hv.1 (hname c (by simp [hc])).ne.2.2.2
  · cases port with
    | none => simp [portText]
    | some p =>
      have hdigits : (Nat.toDigits 10 p).all Char.isDigit = true :=
        List.all_eq_true.mpr fun c hc => Nat.isDigit_of_mem_toDigits (by decide) (by decide) hc
      simp [hdigits]

include hne hname in
theorem trimSlashes_name (scheme : Scheme) : trimSlashes (scheme.text ++ "://" ++ (text ++ portText port)) =
    scheme.text ++ "://" ++ (text ++ portText port) := by
  have hauth : text.toList ++ (portText port).toList ≠ [] := by simp [hne]
  rw [trimSlashes, ← String.toList_inj, String.toList_ofList]
  refine List.rdropWhile_eq_self_iff.mpr fun hl => ?_
  simp only [String.toList_append] at hl ⊢
  rw [List.getLast_append_of_ne_nil _ hauth]
  have hlast := List.getLast_mem hauth
  intro hs
  have he : (text.toList ++ (portText port).toList).getLast hauth = '/' := by simpa using hs
  exact slash_not_mem_authority hname port (he ▸ hlast)

include hne hname in
theorem host_name (scheme : Scheme) (token : Option String) :
    (Engine.new (scheme.text ++ "://" ++ (text ++ portText port)) token).host = text := by
  have hstop : ∀ c ∈ text.toList, decide (c ≠ ':' ∧ c ≠ '/') = true := by
    intro c hc
    have := (hname c hc).ne
    simp [this.1, this.2.1]
  unfold Engine.host Engine.new
  rw [trimSlashes_name hne hname port scheme, ← String.toList_inj, String.toList_ofList]
  simp only [String.toList_append]
  rw [trim_scheme scheme (slash_not_mem_authority hname port), toList_portText]
  cases port with
  | none =>
    rw [Option.map_none, Option.getD_none, List.append_nil]
    exact List.takeWhile_eq_self_iff.mpr hstop
  | some p => exact takeWhile_append_stop hstop (by simp)

include hne hname in
/-- An announced name gives a URL of a scheme, that name and a port or none. -/
theorem engineUrlFrom_name (scheme : Scheme) (brackets : Bool) (full : Option (Scheme × Nat)) :
    ∃ (s : Scheme) (p : Option Nat),
      engineUrlFrom (Announcement.spelled ⟨.name text ⟨hne, hname⟩, port, brackets, full⟩) scheme.text =
        s.text ++ "://" ++ (text ++ portText p) := by
  have hslash := slash_not_mem_authority hname port
  cases full with
  | some f =>
    obtain ⟨s, n⟩ := f
    have hs : ':' ∉ s.text.toList := by cases s <;> decide
    refine ⟨s, port, ?_⟩
    show engineUrlFrom (s.text ++ "://" ++ (text ++ portText port) ++ String.ofList (List.replicate n '/')) _ = _
    have hsome : (cut "://".toList
        (s.text ++ "://" ++ (text ++ portText port) ++ String.ofList (List.replicate n '/')).toList).isSome := by
      simp only [cut_scheme, String.toList_append]
      rw [List.append_assoc, breakScheme_append hs]
      rfl
    have hslashes : ∀ c ∈ (List.replicate n '/').reverse, decide (c = '/') = true := by simp
    rw [engineUrlFrom, if_pos hsome, trimSlashes, String.toList_append, String.toList_ofList, List.rdropWhile,
      List.reverse_append, List.dropWhile_append_of_pos hslashes]
    exact trimSlashes_name hne hname port s
  | none =>
    show ∃ s p, engineUrlFrom (text ++ portText port) _ = _
    have hnone : ¬ (cut "://".toList (text ++ portText port).toList).isSome := by
      rw [cut_scheme, String.toList_append, breakScheme_eq_none hslash]
      simp
    cases port with
    | none =>
      have hc : ¬ (text ++ portText none).toList.contains ':' := by
        simp only [portText, String.append_empty, List.contains_iff_mem]
        exact fun h => (hname _ h).ne.1 rfl
      refine ⟨scheme, some 9090, ?_⟩
      rw [engineUrlFrom, if_neg hnone, if_neg hc]
      have hport : portText (some 9090) = ":9090" := by decide +kernel
      rw [hport, portText, String.append_empty]
      simp [toString, String.append_assoc]
    | some p =>
      refine ⟨scheme, some p, ?_⟩
      have hc : (text ++ portText (some p)).toList.contains ':' := by
        simp [toList_portText]
      rw [engineUrlFrom, if_neg hnone, if_pos hc]
      simp [toString, String.append_assoc]

end

/-! ### All hosts -/

/-- The engine's own reading never has a `:`. -/
theorem colon_not_mem_host (e : Engine) : ':' ∉ e.host.toList := by
  intro h
  rw [Engine.host, String.toList_ofList] at h
  have := List.mem_takeWhile_imp h
  simp at this

/-- A host is read back alike everywhere exactly when it is not an IPv6
address. -/
theorem engineUrl_agrees_iff (a : Announcement) (scheme : Scheme) (token : Option String) :
    Agrees a scheme token ↔ a.host.IsName := by
  obtain ⟨host, port, brackets, full⟩ := a
  cases host with
  | name text wf =>
    refine ⟨fun _ => trivial, fun _ => ?_⟩
    obtain ⟨s, p, he⟩ := engineUrlFrom_name wf.1 wf.2 port scheme brackets full
    have hread := urlHost_name wf.1 wf.2 p s
    have hhost := host_name wf.1 wf.2 p s token
    refine ⟨?_, ?_, fun t ht => ?_⟩
    · rw [he, hread]
      rfl
    · rw [he, hread, hhost]
    · rw [Engine.transportAddress, if_pos ht, he, hread, hhost]
  | ipv6 text wf =>
    refine ⟨fun h => ?_, fun h => h.elim⟩
    refine absurd ?_ (colon_not_mem_host
      (Engine.new (engineUrlFrom (Announcement.spelled ⟨.ipv6 text wf, port, brackets, full⟩) scheme.text) token))
    rw [h.host, h.read]
    exact wf.1

/-- An engine that announces an IPv6 address with a port. -/
theorem engineUrl_ipv6 : ¬ Agrees ⟨.ipv6 "fd00::5" (by simp [IsIpv6Char]), some 9090, true, none⟩ .http none := by
  intro h
  exact absurd h.host (by decide +kernel)

end StormStorage
