import DecentStore.PeerEntry

/-!
# Which peer entries are taken for what

An entry as it should be written, with whatever blanks and with or without the prefix, is read as
its host and port. But the text of the port may be anything that begins with a number, of any size
and sign, so more is accepted: an entry that is accepted is strict exactly when its port is written
in digits, fits a port, and one prefix at most stands before the host.
-/

namespace DecentStore

open Bytes Text

def Blank (s : Bytes) : Prop := ∀ b ∈ s, isBlank b = true

instance (s : Bytes) : Decidable (Blank s) :=
  inferInstanceAs (Decidable (∀ b ∈ s, isBlank b = true))

theorem isBlank_of_isDigit {b : UInt8} : isDigit b = true → isBlank b = false :=
  forall_byte (p := fun b => isDigit b = true → isBlank b = false) (by decide +kernel) b

theorem toLower_of_isBlank {b : UInt8} : isBlank b = true → toLower b = b :=
  forall_byte (p := fun b => isBlank b = true → toLower b = b) (by decide +kernel) b

/-- Neither a colon nor a slash is a letter in another case. -/
theorem eq_of_toLower {b : UInt8} : toLower b = 58 ∨ toLower b = 47 → toLower b = b :=
  forall_byte (p := fun b => toLower b = 58 ∨ toLower b = 47 → toLower b = b)
    (by decide +kernel) b

theorem slash_notMem_of_blank {s : Bytes} (hs : Blank s) : (47 : UInt8) ∉ s := fun hmem =>
  absurd (hs 47 hmem) (by decide)

theorem colon_notMem_of_blank {s : Bytes} (hs : Blank s) : (58 : UInt8) ∉ s := fun hmem =>
  absurd (hs 58 hmem) (by decide)

theorem slash_notMem_of_digits {s : Bytes} (hs : ∀ b ∈ s, isDigit b = true) : (47 : UInt8) ∉ s :=
  fun hmem => absurd (hs 47 hmem) (by decide)

theorem colon_notMem_of_digits {s : Bytes} (hs : ∀ b ∈ s, isDigit b = true) : (58 : UInt8) ∉ s :=
  fun hmem => absurd (hs 58 hmem) (by decide)

theorem trimmed_digits {s : Bytes} (hs : ∀ b ∈ s, isDigit b = true) : Trimmed isBlank s where
  first b hb := isBlank_of_isDigit (hs b (List.mem_of_head? hb))
  last b hb := isBlank_of_isDigit (hs b (List.mem_of_getLast? hb))

/-- `tcp://` in any case. -/
def IsTcp (scheme : Bytes) : Prop := scheme.map toLower = str "tcp://"

instance (scheme : Bytes) : Decidable (IsTcp scheme) := inferInstanceAs (Decidable (_ = _))

namespace IsTcp

variable {scheme : Bytes}

theorem length (hscheme : IsTcp scheme) : scheme.length = 6 := by
  have hmap := congrArg List.length hscheme
  rwa [List.length_map] at hmap

theorem drop (hscheme : IsTcp scheme) : scheme.drop 3 = [58, 47, 47] := by
  have hmap : (scheme.drop 3).map toLower = [58, 47, 47] := by
    rw [List.map_drop, hscheme]
    decide
  have hsame : ∀ b ∈ scheme.drop 3, toLower b = b := by
    intro b hb
    have hmem : toLower b ∈ [(58 : UInt8), 47, 47] := hmap ▸ List.mem_map_of_mem hb
    refine eq_of_toLower ?_
    simpa using hmem
  rwa [List.map_congr_left hsame, List.map_id'] at hmap

theorem getLast (hscheme : IsTcp scheme) : scheme.getLast? = some 47 := by
  rw [← List.take_append_drop 3 scheme, hscheme.drop]
  simp

theorem first (hscheme : IsTcp scheme) : ∀ b ∈ scheme.head?, isBlank b = false := by
  intro b hb
  have hhead : (scheme.map toLower).head? = some 116 := by
    rw [hscheme]
    decide
  rw [List.head?_map, Option.mem_def.mp hb] at hhead
  by_contra hblank
  have hlower := toLower_of_isBlank (Bool.not_eq_false _ ▸ hblank)
  have ht : b = 116 := hlower.symm.trans (Option.some.inj hhead)
  rw [ht] at hblank
  exact hblank (by decide)

end IsTcp

theorem hasTcpPrefix_iff {item : Bytes} :
    hasTcpPrefix item = true ↔ ∃ scheme rest, IsTcp scheme ∧ item = scheme ++ rest := by
  unfold hasTcpPrefix
  rw [beq_iff_eq]
  constructor
  · intro htext
    refine ⟨item.take 6, item.drop 6, ?_, (List.take_append_drop 6 item).symm⟩
    have hsplit : item.take 6 = item.take 3 ++ (item.drop 3).take 3 := by
      rw [← List.take_add]
    have hlength := congrArg List.length htext
    have hsix : (str "tcp://").length = 6 := by decide
    rw [List.length_append, List.length_map, List.length_take, List.length_take, hsix] at hlength
    have hthree : ((item.take 3).map toLower).length = 3 := by
      rw [List.length_map, List.length_take]
      omega
    have hmarks : (item.drop 3).take 3 = [58, 47, 47] := by
      have hdrop := congrArg (List.drop 3) htext
      rw [List.drop_left' hthree] at hdrop
      rw [hdrop]
      decide
    have hlower : ((item.drop 3).take 3).map toLower = (item.drop 3).take 3 := by
      rw [hmarks]
      decide
    unfold IsTcp
    rw [hsplit, List.map_append, hlower, htext]
  · rintro ⟨scheme, rest, hscheme, rfl⟩
    have htake : (scheme ++ rest).take 3 = scheme.take 3 :=
      List.take_append_of_le_length (by rw [hscheme.length]; decide)
    have hdrop : ((scheme ++ rest).drop 3).take 3 = scheme.drop 3 := by
      rw [List.drop_append_of_le_length (by rw [hscheme.length]; decide),
        List.take_left' (by rw [List.length_drop, hscheme.length])]
    rw [htake, hdrop, List.map_take, hscheme, hscheme.drop]
    decide

theorem hasTcpPrefix_append {item : Bytes} (hmarked : hasTcpPrefix item = true) (more : Bytes) :
    hasTcpPrefix (item ++ more) = true := by
  obtain ⟨scheme, rest, hscheme, rfl⟩ := hasTcpPrefix_iff.mp hmarked
  exact hasTcpPrefix_iff.mpr ⟨scheme, rest ++ more, hscheme, List.append_assoc _ _ _⟩

/-- The prefix ends in a slash, so a part without one has nothing of it. -/
theorem hasTcpPrefix_of_append {item more : Bytes} (hslash : (47 : UInt8) ∉ more)
    (hmarked : hasTcpPrefix (item ++ more) = true) : hasTcpPrefix item = true := by
  obtain ⟨scheme, rest, hscheme, hsplit⟩ := hasTcpPrefix_iff.mp hmarked
  rcases List.append_eq_append_iff.mp hsplit with ⟨part, hscheme', hmore⟩ | ⟨part, hitem, -⟩
  · have hnil : part = [] := by
      by_contra hne
      have hlast := hscheme.getLast
      rw [hscheme', List.getLast?_append_of_ne_nil _ hne] at hlast
      exact hslash (hmore ▸ List.mem_append_left rest (List.mem_of_getLast? hlast))
    rw [hnil, List.append_nil] at hscheme'
    exact hasTcpPrefix_iff.mpr ⟨scheme, [], hscheme, by rw [List.append_nil, hscheme']⟩
  · exact hasTcpPrefix_iff.mpr ⟨scheme, part, hscheme, hitem⟩

theorem stripTcpPrefix_scheme {scheme : Bytes} (hscheme : IsTcp scheme) (rest : Bytes) :
    stripTcpPrefix (scheme ++ rest) = trimWs rest := by
  have hmarked : hasTcpPrefix (scheme ++ rest) = true :=
    hasTcpPrefix_iff.mpr ⟨scheme, rest, hscheme, rfl⟩
  rw [stripTcpPrefix, if_pos hmarked, List.drop_left' hscheme.length]

theorem stoi_digits {ds : Bytes} (hdigits : ∀ b ∈ ds, isDigit b = true) (hpos : 1 ≤ value ds)
    (hmax : value ds < 2 ^ 31) : Crypto.stoi 10 ds = .ok (value ds : Int) := by
  have hne : ds ≠ [] := by
    rintro rfl
    exact absurd hpos (by decide)
  rw [Crypto.stoi, strtol_digits hne hdigits]
  exact if_neg (by omega)

theorem readHostPort_ok_iff {item host portStr : Bytes} {ep : PeerEndpoint} :
    readHostPort item host portStr = .ok ep ↔
      host ≠ [] ∧ portStr ≠ [] ∧ ep.ip = host ∧ Crypto.stoi 10 portStr = .ok ep.port := by
  unfold readHostPort
  constructor
  · intro hok
    split at hok
    · cases hok
    · rename_i hempty
      obtain ⟨hhost, hport⟩ := not_or.mp hempty
      split at hok
      · rename_i port hstoi
        cases hok
        exact ⟨hhost, hport, rfl, hstoi⟩
      · cases hok
  · rintro ⟨hhost, hport, hip, hstoi⟩
    rw [if_neg (not_or.mpr ⟨hhost, hport⟩), hstoi, ← hip]

theorem splitHostPort_colon {l r : Bytes} (hr : (58 : UInt8) ∉ r) (hl : l ≠ []) :
    splitHostPort (l ++ 58 :: r) = readHostPort (l ++ 58 :: r) (trimWs l) (trimWs r) := by
  obtain ⟨b, rest, rfl⟩ := List.exists_cons_of_ne_nil hl
  have htake : (b :: rest ++ 58 :: r).take (rest.length + 1) = b :: rest :=
    List.take_left' List.length_cons
  have hdrop : (b :: rest ++ 58 :: r).drop (rest.length + 1 + 1) = r := by simp
  rw [splitHostPort, rfind_append hr]
  simp only [List.length_cons, htake, hdrop]

theorem splitHostPort_ok_iff {item : Bytes} {ep : PeerEndpoint} :
    splitHostPort item = .ok ep ↔ ∃ l r, item = l ++ 58 :: r ∧ (58 : UInt8) ∉ r ∧
      trimWs l ≠ [] ∧ trimWs r ≠ [] ∧ ep.ip = trimWs l ∧
      Crypto.stoi 10 (trimWs r) = .ok ep.port := by
  constructor
  · intro hok
    cases hfind : rfind 58 item with
    | none =>
        rw [splitHostPort, hfind] at hok
        cases hok
    | some i =>
        obtain ⟨l, r, rfl, hr, rfl⟩ := exists_of_rfind hfind
        by_cases hl : l = []
        · subst hl
          rw [splitHostPort, hfind] at hok
          cases hok
        · rw [splitHostPort_colon hr hl] at hok
          exact ⟨l, r, rfl, hr, readHostPort_ok_iff.mp hok⟩
  · rintro ⟨l, r, rfl, hr, hread⟩
    have hl : l ≠ [] := by
      rintro rfl
      exact hread.1 trim_nil
    rw [splitHostPort_colon hr hl]
    exact readHostPort_ok_iff.mpr hread

/-! ### An entry as it should be written -/

/-- A host and a port with the blanks around them, and the prefix if there is one. -/
structure WrittenEntry where
  host : Bytes
  digits : Bytes
  scheme : Bytes := []
  lead : Bytes := []
  gap : Bytes := []
  before : Bytes := []
  after : Bytes := []
  trail : Bytes := []
  host_ne : host ≠ []
  host_trimmed : Trimmed isBlank host
  host_plain : hasTcpPrefix host = false
  port_digits : ∀ b ∈ digits, isDigit b = true
  port_pos : 1 ≤ value digits
  port_le : value digits ≤ 65535
  scheme_tcp : scheme = [] ∨ IsTcp scheme
  lead_blank : Blank lead
  gap_blank : Blank gap
  before_blank : Blank before
  after_blank : Blank after
  trail_blank : Blank trail

namespace WrittenEntry

variable (e : WrittenEntry)

def text : Bytes :=
  e.lead ++ e.scheme ++ e.gap ++ e.host ++ e.before ++ str ":" ++ e.after ++ e.digits ++ e.trail

def endpoint : PeerEndpoint := ⟨e.host, value e.digits⟩

/-- The entry without what is around it. -/
def core : Bytes := (e.host ++ e.before) ++ 58 :: (e.after ++ e.digits)

theorem digits_ne : e.digits ≠ [] := by
  intro hnil
  have hpos := e.port_pos
  rw [hnil] at hpos
  exact absurd hpos (by decide)

theorem core_first : ∀ b ∈ e.core.head?, isBlank b = false := by
  intro b hb
  rw [core, List.append_assoc, List.head?_append_of_ne_nil _ e.host_ne] at hb
  exact e.host_trimmed.first b hb

theorem core_ne : e.core ≠ [] := by
  simp [core]

theorem core_trimmed : Trimmed isBlank e.core where
  first := e.core_first
  last b hb := by
    have hsplit : e.core = (e.host ++ e.before ++ 58 :: e.after) ++ e.digits := by
      simp [core]
    rw [hsplit, List.getLast?_append_of_ne_nil _ e.digits_ne] at hb
    exact (trimmed_digits e.port_digits).last b hb

theorem slash_notMem_core : (47 : UInt8) ∉ e.before ++ 58 :: (e.after ++ e.digits) := by
  simp only [List.mem_append, List.mem_cons, not_or]
  exact ⟨slash_notMem_of_blank e.before_blank, by decide, slash_notMem_of_blank e.after_blank,
    slash_notMem_of_digits e.port_digits⟩

theorem core_plain : hasTcpPrefix e.core = false := by
  refine Bool.eq_false_iff.mpr fun hmarked => ?_
  rw [core, List.append_assoc] at hmarked
  have hhost := hasTcpPrefix_of_append e.slash_notMem_core hmarked
  rw [e.host_plain] at hhost
  exact Bool.false_ne_true hhost

theorem splitHostPort_core : splitHostPort e.core = .ok e.endpoint := by
  have hcolon : (58 : UInt8) ∉ e.after ++ e.digits := by
    rw [List.mem_append, not_or]
    exact ⟨colon_notMem_of_blank e.after_blank, colon_notMem_of_digits e.port_digits⟩
  have hhost : trimWs (e.host ++ e.before) = e.host := by
    exact (trim_append e.before_blank e.host).trans (trim_of_trimmed e.host_trimmed)
  have hport : trimWs (e.after ++ e.digits) = e.digits := by
    exact (append_trim e.after_blank e.digits).trans
      (trim_of_trimmed (trimmed_digits e.port_digits))
  refine splitHostPort_ok_iff.mpr ⟨_, _, rfl, hcolon, ?_, ?_, hhost.symm, ?_⟩
  · rw [hhost]
    exact e.host_ne
  · rw [hport]
    exact e.digits_ne
  · rw [hport]
    exact stoi_digits e.port_digits e.port_pos (lt_of_le_of_lt e.port_le (by decide))

theorem stripTcpPrefix_text : stripTcpPrefix (trimWs e.text) = e.core := by
  rcases e.scheme_tcp with hnone | htcp
  · have htext : e.text = (e.lead ++ e.gap) ++ e.core ++ e.trail := by
      simp [text, core, hnone, str]
    have hblank : Blank (e.lead ++ e.gap) := fun b hb =>
      (List.mem_append.mp hb).elim (e.lead_blank b) (e.gap_blank b)
    have htrim : trimWs e.text = e.core := by
      rw [htext]
      exact (trim_pad hblank e.trail_blank e.core).trans (trim_of_trimmed e.core_trimmed)
    rw [htrim, stripTcpPrefix, e.core_plain]
    rfl
  · have htext : e.text = e.lead ++ (e.scheme ++ (e.gap ++ e.core)) ++ e.trail := by
      simp [text, core, str]
    have hne : e.scheme ≠ [] := by
      intro hnil
      have hlength := htcp.length
      rw [hnil] at hlength
      cases hlength
    have hlast : ∀ b ∈ (e.gap ++ e.core).getLast?, isBlank b = false := by
      intro b hb
      rw [List.getLast?_append_of_ne_nil _ e.core_ne] at hb
      exact e.core_trimmed.last b hb
    have hwhole : Trimmed isBlank (e.scheme ++ (e.gap ++ e.core)) :=
      Trimmed.append htcp.first hne hlast (by simp [e.core_ne])
    have htrim : trimWs e.text = e.scheme ++ (e.gap ++ e.core) := by
      rw [htext]
      exact (trim_pad e.lead_blank e.trail_blank _).trans (trim_of_trimmed hwhole)
    calc stripTcpPrefix (trimWs e.text)
        = stripTcpPrefix (e.scheme ++ (e.gap ++ e.core)) := congrArg stripTcpPrefix htrim
      _ = trimWs (e.gap ++ e.core) := stripTcpPrefix_scheme htcp _
      _ = trimWs e.core := append_trim e.gap_blank e.core
      _ = e.core := trim_of_trimmed e.core_trimmed

/-- **An entry as it should be written** is read as its host and port. -/
theorem parse_text : parsePeerEntry e.text = .ok e.endpoint := by
  unfold parsePeerEntry
  rw [e.stripTcpPrefix_text, e.splitHostPort_core]

end WrittenEntry

theorem decimalInt_natCast (n : Nat) : decimalInt (n : Int) = decimal n := by
  rw [decimalInt, if_neg (by omega), Int.natAbs_natCast]

/-- An endpoint as the program writes it is read back. -/
theorem parse_endpoint {ip : Bytes} {n : Nat} (hne : ip ≠ []) (htrimmed : Trimmed isBlank ip)
    (hplain : hasTcpPrefix ip = false) (hpos : 1 ≤ n) (hle : n ≤ 65535) :
    parsePeerEntry (ip ++ str ":" ++ decimalInt n) = .ok ⟨ip, n⟩ := by
  have hnone : Blank [] := fun _ hb => absurd hb List.not_mem_nil
  let e : WrittenEntry :=
    { host := ip, digits := decimal n, host_ne := hne, host_trimmed := htrimmed
      host_plain := hplain, port_digits := fun _ hb => isDigit_of_mem_decimal hb
      port_pos := by rwa [value_decimal], port_le := by rwa [value_decimal]
      scheme_tcp := Or.inl rfl, lead_blank := hnone, gap_blank := hnone, before_blank := hnone
      after_blank := hnone, trail_blank := hnone }
  have htext : e.text = ip ++ str ":" ++ decimalInt n := by
    simp [e, WrittenEntry.text, decimalInt_natCast]
  have hendpoint : e.endpoint = ⟨ip, n⟩ := by
    simp [e, WrittenEntry.endpoint]
  rw [← htext, ← hendpoint]
  exact e.parse_text

/-! ### An entry that is accepted -/

/-- The text after the last colon, without the blanks around it. -/
def portText (s : Bytes) : Bytes := trimWs (s.rtakeWhile (· ≠ 58))

theorem exists_stripped (s : Bytes) :
    ∃ pre post, Blank post ∧ s = pre ++ stripTcpPrefix (trimWs s) ++ post := by
  obtain ⟨lead, trail, -, htrail, hs⟩ := exists_pad isBlank s
  by_cases hmarked : hasTcpPrefix (trimWs s) = true
  · obtain ⟨lead', trail', -, htrail', hrest⟩ := exists_pad isBlank ((trimWs s).drop 6)
    refine ⟨lead ++ (trimWs s).take 6 ++ lead', trail' ++ trail, fun b hb =>
      (List.mem_append.mp hb).elim (htrail' b) (htrail b), ?_⟩
    have hstrip : stripTcpPrefix (trimWs s) = trimWs ((trimWs s).drop 6) := if_pos hmarked
    calc s = lead ++ trimWs s ++ trail := hs
      _ = lead ++ ((trimWs s).take 6 ++ (trimWs s).drop 6) ++ trail := by
          rw [List.take_append_drop]
      _ = lead ++ ((trimWs s).take 6 ++ (lead' ++ trimWs ((trimWs s).drop 6) ++ trail')) ++
            trail := congrArg (fun rest => lead ++ ((trimWs s).take 6 ++ rest) ++ trail) hrest
      _ = _ := by
          rw [hstrip]
          simp only [List.append_assoc]
  · exact ⟨lead, trail, htrail, by rw [stripTcpPrefix, if_neg hmarked]; exact hs⟩

theorem trimmed_stripped (s : Bytes) : Trimmed isBlank (stripTcpPrefix (trimWs s)) := by
  unfold stripTcpPrefix
  split
  · exact trimmed_trim isBlank _
  · exact trimmed_trim isBlank s

/-- What is known of an accepted entry: left of the last colon is the host, right of it the port. -/
structure Accepts (s : Bytes) (ep : PeerEndpoint) (l r : Bytes) : Prop where
  split : stripTcpPrefix (trimWs s) = l ++ 58 :: r
  colon : (58 : UInt8) ∉ r
  host_ne : trimWs l ≠ []
  ip : ep.ip = trimWs l
  stoi : Crypto.stoi 10 (portText s) = .ok ep.port
  port : portText s = trimWs r

theorem exists_accepts {s : Bytes} {ep : PeerEndpoint} (hok : parsePeerEntry s = .ok ep) :
    ∃ l r, Accepts s ep l r := by
  obtain ⟨l, r, hsplit, hr, hhost, -, hip, hstoi⟩ := splitHostPort_ok_iff.mp hok
  obtain ⟨pre, post, hpost, hs⟩ := exists_stripped s
  have hport : portText s = trimWs r := by
    have hcolon : (58 : UInt8) ∉ r ++ post := by
      rw [List.mem_append, not_or]
      exact ⟨hr, colon_notMem_of_blank hpost⟩
    have htext : s = (pre ++ l) ++ 58 :: (r ++ post) := by
      rw [hsplit] at hs
      simpa using hs
    have hafter : s.rtakeWhile (· ≠ 58) = r ++ post := by
      conv_lhs => rw [htext]
      exact rtakeWhile_append hcolon _
    rw [portText, hafter]
    exact trim_append hpost r
  exact ⟨l, r, hsplit, hr, hhost, hip, hport ▸ hstoi, hport⟩

namespace Accepts

variable {s l r : Bytes} {ep : PeerEndpoint}

theorem exists_trail (h : Accepts s ep l r) : ∃ trail, Blank trail ∧ l = ep.ip ++ trail := by
  have hl : l ≠ [] := by
    rintro rfl
    exact h.host_ne trim_nil
  have hfirst : ∀ b ∈ l.head?, isBlank b = false := by
    intro b hb
    refine (trimmed_stripped s).first b ?_
    rwa [h.split, List.head?_append_of_ne_nil _ hl]
  obtain ⟨trail, htrail, hsplit⟩ := Text.exists_trail hfirst
  exact ⟨trail, htrail, h.ip ▸ hsplit⟩

theorem ip_trimmed (h : Accepts s ep l r) : Trimmed isBlank ep.ip := by
  rw [h.ip]
  exact trimmed_trim isBlank l

theorem ip_ne (h : Accepts s ep l r) : ep.ip ≠ [] := by
  rw [h.ip]
  exact h.host_ne

/-- The host has a prefix if there was a second one in front of it. -/
theorem hasTcpPrefix_ip_iff (h : Accepts s ep l r)
    (hdigits : ∀ b ∈ portText s, isDigit b = true) :
    hasTcpPrefix ep.ip = true ↔ hasTcpPrefix (stripTcpPrefix (trimWs s)) = true := by
  obtain ⟨trail, htrail, hl⟩ := h.exists_trail
  obtain ⟨lead, rest, hlead, hrest, hr⟩ := exists_pad isBlank r
  have hslash : (47 : UInt8) ∉ trail ++ 58 :: r := by
    have hport : ∀ b ∈ trimWs r, isDigit b = true := h.port ▸ hdigits
    rw [hr]
    simp only [List.mem_append, List.mem_cons, not_or]
    exact ⟨slash_notMem_of_blank htrail, by decide, ⟨slash_notMem_of_blank hlead,
      slash_notMem_of_digits hport⟩, slash_notMem_of_blank hrest⟩
  rw [h.split, hl, List.append_assoc]
  exact ⟨fun hmarked => hasTcpPrefix_append hmarked _, hasTcpPrefix_of_append hslash⟩

end Accepts

/-- A host with a prefix is not read back: the reader takes the prefix off it. -/
theorem parse_not_stable {ip : Bytes} {n : Nat} (htrimmed : Trimmed isBlank ip)
    (hmarked : hasTcpPrefix ip = true) {ep : PeerEndpoint}
    (hok : parsePeerEntry (ip ++ str ":" ++ decimal n) = .ok ep) : ep.ip ≠ ip := by
  obtain ⟨scheme, rest, hscheme, hip⟩ := hasTcpPrefix_iff.mp hmarked
  have hdigits : ∀ b ∈ decimal n, isDigit b = true := fun _ hb => isDigit_of_mem_decimal hb
  have hlast : ∀ b ∈ (str ":" ++ decimal n).getLast?, isBlank b = false := by
    intro b hb
    rw [List.getLast?_append_of_ne_nil _ (decimal_ne_nil n)] at hb
    exact (trimmed_digits hdigits).last b hb
  have hipNe : ip ≠ [] := by
    rintro rfl
    cases hmarked
  have hstrip : stripTcpPrefix (trimWs (ip ++ str ":" ++ decimal n)) =
      trimWs (rest ++ 58 :: decimal n) :=
    calc stripTcpPrefix (trimWs (ip ++ str ":" ++ decimal n))
        = stripTcpPrefix (ip ++ (str ":" ++ decimal n)) := by
          rw [List.append_assoc]
          exact congrArg stripTcpPrefix (trim_of_trimmed
            (Trimmed.append htrimmed.first hipNe hlast (by simp [decimal_ne_nil])))
      _ = stripTcpPrefix (scheme ++ (rest ++ 58 :: decimal n)) := by
          rw [hip, List.append_assoc]
          rfl
      _ = trimWs (rest ++ 58 :: decimal n) := stripTcpPrefix_scheme hscheme _
  obtain ⟨l, r, hsplit, hr, -, -, hl, -⟩ := splitHostPort_ok_iff.mp hok
  have hshort : l.length ≤ rest.length :=
    length_le_of_trim_eq (by decide) (colon_notMem_of_digits hdigits) hr (hstrip.symm.trans hsplit)
  intro hsame
  have hlong := congrArg List.length (hsame.symm.trans hl)
  have htrim : (trimWs l).length ≤ l.length := length_trim_le isBlank l
  rw [hip, List.length_append, hscheme.length] at hlong
  omega

/-- What is asked of an entry that is accepted. -/
structure Strict (s : Bytes) (ep : PeerEndpoint) : Prop where
  digits : ∀ b ∈ portText s, isDigit b = true
  port : (value (portText s) : Int) = ep.port
  range : 1 ≤ ep.port ∧ ep.port ≤ 65535
  stable : parsePeerEntry (ep.ip ++ str ":" ++ decimalInt ep.port) = .ok ep

/-- The port is written in digits and fits, and after one prefix there is not another. -/
structure StrictText (s : Bytes) : Prop where
  digits : ∀ b ∈ portText s, isDigit b = true
  pos : 1 ≤ value (portText s)
  le : value (portText s) ≤ 65535
  single : hasTcpPrefix (stripTcpPrefix (trimWs s)) = false

theorem strict_iff {s : Bytes} {ep : PeerEndpoint} (hok : parsePeerEntry s = .ok ep) :
    Strict s ep ↔ StrictText s := by
  obtain ⟨l, r, h⟩ := exists_accepts hok
  constructor
  · intro hstrict
    have hport := hstrict.port
    obtain ⟨hlow, hhigh⟩ := hstrict.range
    refine ⟨hstrict.digits, by omega, by omega, Bool.eq_false_iff.mpr fun hmarked => ?_⟩
    have hip := (h.hasTcpPrefix_ip_iff hstrict.digits).mpr hmarked
    have hstable := hstrict.stable
    rw [← hport, decimalInt_natCast] at hstable
    exact parse_not_stable h.ip_trimmed hip hstable rfl
  · intro htext
    have hlow := htext.pos
    have hhigh := htext.le
    have hstoi := h.stoi
    rw [stoi_digits htext.digits hlow (by omega)] at hstoi
    have hport : (value (portText s) : Int) = ep.port := Except.ok.inj hstoi
    have hplain : hasTcpPrefix ep.ip = false := by
      refine Bool.eq_false_iff.mpr fun hmarked => ?_
      have hitem := (h.hasTcpPrefix_ip_iff htext.digits).mp hmarked
      rw [htext.single] at hitem
      exact Bool.false_ne_true hitem
    have hstable := parse_endpoint h.ip_ne h.ip_trimmed hplain hlow hhigh
    rw [hport] at hstable
    exact ⟨htext.digits, hport, by omega, hstable⟩

/-- **When an accepted entry is a strict one.** An entry as it should be written is always read as
its host and port, and an accepted entry is strict exactly when its text is. -/
theorem parse_strict_iff (s : Bytes) (ep : PeerEndpoint) :
    (parsePeerEntry s = .ok ep → (Strict s ep ↔ StrictText s)) ∧
      ∀ e : WrittenEntry, parsePeerEntry e.text = .ok e.endpoint :=
  ⟨strict_iff, fun e => e.parse_text⟩

theorem plain_entry_strict : Strict (str " TCP://10.0.0.1:9000") ⟨str "10.0.0.1", 9000⟩ := by
  have hok : parsePeerEntry (str " TCP://10.0.0.1:9000") = .ok ⟨str "10.0.0.1", 9000⟩ := by decide
  exact ((parse_strict_iff _ _).1 hok).mpr ⟨by decide, by decide, by decide, by decide⟩

/-- A letter after the port is not noticed. -/
theorem loose_port_accepted : ¬ ((∀ s ep, parsePeerEntry s = .ok ep → Strict s ep) ∧
    ∀ e : WrittenEntry, parsePeerEntry e.text = .ok e.endpoint) := by
  rintro ⟨hall, -⟩
  have hstrict := hall (str "10.0.0.1:9000x") ⟨str "10.0.0.1", 9000⟩ (by decide)
  exact absurd hstrict.digits (by decide)

end DecentStore
