/-
Neoip/HttpHeaderRound.lean

Headers are read back from their string.

Each line is cut where it was joined: the end of a line is the first pair of a return
and a line feed, and there is none in what was joined (`consumeLine_append`), but maybe
in the reason phrase of a reply, the one part which nothing was asked of.  An entry is
cut at the first colon (`parseHeaderDb_cons`), the first line at its blanks.  So what is
read is what was written, less what goes through a conversion: a method or a version
which is `NONE`, the port of the uri and the status code (`HttpReqhd.parse_toHttp`,
`HttpRephd.fromHttp_toHttp`).

Main results: `HttpReqhd.fromHttp_iff` and `HttpRephd.fromHttp_iff`.
-/
import Neoip.HttpHeader
import Neoip.HttpUriRound

namespace Neoip

namespace HttpHeader

variable {str rest pre : Datum} {a b c : Datum} {n : ℕ}

/-! ### Lines -/

theorem findSubstr_crlf (h : ¬ crlf <:+: str) (rest : Datum) :
    findSubstr crlf (str ++ (crlf ++ rest)) = some str.length := by
  induction str with
  | nil =>
    rw [crlf, List.nil_append, List.cons_append, findSubstr, if_pos]
    · rfl
    · exact List.cons_prefix_cons.2 ⟨rfl, List.prefix_append _ _⟩
  | cons d str ih =>
    have htail : ¬ crlf <:+: str := fun hpair => h (List.infix_cons hpair)
    rw [List.cons_append, findSubstr, if_neg, ih htail]
    · rfl
    · -- a pair which begins here would end in what follows, where there is no line feed yet
      intro hbegin
      obtain ⟨rfl, hnext⟩ := List.cons_prefix_cons.1 hbegin
      cases str with
      | nil => exact absurd (List.cons_prefix_cons.1 hnext).1 (by decide)
      | cons e str =>
        obtain ⟨rfl, -⟩ := List.cons_prefix_cons.1 hnext
        exact h ⟨[], str, rfl⟩

/-- A line ends where it was ended. -/
theorem consumeLine_append (h : ¬ crlf <:+: str) (rest : Datum) :
    consumeLine (str ++ (crlf ++ rest)) = (str, rest) := by
  rw [consumeLine, findSubstr_crlf h]
  refine Prod.ext List.take_left ?_
  show (str ++ (crlf ++ rest)).drop (str.length + 2) = rest
  rw [← List.append_assoc]
  exact List.drop_left' (by simp [crlf])

theorem findSubstr_append_left {substr : Datum} {d : UInt8} (h : d ∉ pre) (str : Datum) :
    findSubstr (d :: substr) (pre ++ str) =
      (findSubstr (d :: substr) str).map (· + pre.length) := by
  induction pre with
  | nil => simp
  | cons e pre ih =>
    have hpre : d ∉ pre := fun hmem => h (List.mem_cons_of_mem _ hmem)
    rw [List.cons_append, findSubstr, if_neg, ih hpre, Option.map_map]
    · rfl
    · intro hbegin
      exact h ((List.cons_prefix_cons.1 hbegin).1 ▸ List.mem_cons_self ..)

/-- What holds no return goes with the line. -/
theorem consumeLine_append_left (h : 13 ∉ pre) (str : Datum) :
    consumeLine (pre ++ str) = (pre ++ (consumeLine str).1, (consumeLine str).2) := by
  rw [consumeLine, crlf, findSubstr_append_left h, consumeLine, crlf]
  rcases hpos : findSubstr [13, 10] str with - | pos
  · rfl
  · refine Prod.ext ?_ ?_
    · show (pre ++ str).take (pos + pre.length) = pre ++ str.take pos
      rw [Nat.add_comm, List.take_length_add_append]
    · show (pre ++ str).drop (pos + pre.length + 2) = str.drop (pos + 2)
      rw [Nat.add_right_comm, Nat.add_comm, List.drop_length_add_append]

/-- The line before a return and a line feed which are in it is a shorter one. -/
theorem consumeLine_ne (h : crlf <:+: str) (rest : Datum) :
    (consumeLine (str ++ rest)).1 ≠ str := by
  obtain ⟨before, after, rfl⟩ := h
  -- the first pair begins before the end of `before`
  have hle : ∀ before : Datum, ∃ pos, findSubstr crlf (before ++ (crlf ++ (after ++ rest))) =
      some pos ∧ pos ≤ before.length := by
    intro before
    by_cases hpair : crlf <:+: before
    · induction before with
      | nil => exact absurd (List.infix_nil.1 hpair) (by decide)
      | cons d before ih =>
        rw [List.cons_append, findSubstr]
        split_ifs with hbegin
        · exact ⟨0, rfl, Nat.zero_le _⟩
        · rcases List.infix_cons_iff.1 hpair with hhead | htail
          · exact absurd (hhead.trans (List.prefix_append (d :: before) _)) hbegin
          · obtain ⟨pos, hpos, hle⟩ := ih htail
            exact ⟨pos + 1, by rw [hpos]; rfl, Nat.succ_le_succ hle⟩
    · exact ⟨before.length, findSubstr_crlf hpair _, le_refl _⟩
  obtain ⟨pos, hpos, hle⟩ := hle before
  have hassoc : before ++ crlf ++ after ++ rest = before ++ (crlf ++ (after ++ rest)) := by
    simp only [List.append_assoc]
  intro heq
  have hlen := congrArg List.length heq
  rw [hassoc, consumeLine, hpos] at hlen
  simp only [List.length_take, List.length_append, crlf, List.length_cons, List.length_nil] at hlen
  omega

/-! ### Entries -/

/-- An entry whose key holds neither a colon nor a line break, and whose value holds no line break
and has no blank around it. -/
structure IsEntry (item : StrvarItem) : Prop where
  key_colon : 58 ∉ item.key
  key_line : ¬ crlf <:+: item.key
  val_line : ¬ crlf <:+: item.val
  val_head : ∀ c, item.val.head? = some c → c ≠ 32
  val_last : ∀ c, item.val.getLast? = some c → c ≠ 32

theorem IsEntry.line {item : StrvarItem} (h : IsEntry item) :
    ¬ crlf <:+: item.key ++ 58 :: 32 :: item.val := by
  intro hpair
  rcases Fields.pair_infix_append hpair with hkey | hval | ⟨-, hhead⟩
  · exact h.key_line hkey
  · -- what the value is put behind does not begin a pair
    rw [← List.singleton_append (l := item.val), ← List.cons_append] at hval
    rcases Fields.pair_infix_append hval with hsepa | hval | ⟨hlast, -⟩
    · exact Fields.not_pair_infix_of_notMem (by decide) hsepa
    · exact h.val_line hval
    · exact absurd (Option.some.inj hlast) (by decide)
  · exact absurd (Option.some.inj hhead) (by decide)

/-- An entry is parsed as it was. -/
theorem parseHeaderDb_cons {item : StrvarItem} (h : IsEntry item) (db : StrvarDb) (rest : Datum) :
    parseHeaderDb db (item.key ++ [58, 32] ++ item.val ++ crlf ++ rest) =
      parseHeaderDb (db.append item.key item.val) rest := by
  have hstr : item.key ++ [58, 32] ++ item.val ++ crlf ++ rest =
      item.key ++ 58 :: 32 :: item.val ++ (crlf ++ rest) := by
    simp only [List.append_assoc, List.cons_append, List.nil_append]
  have hsplit : split 58 2 (item.key ++ 58 :: 32 :: item.val) = [item.key, 32 :: item.val] :=
    Fields.split_two_eq_iff.2 ⟨rfl, h.key_colon⟩
  have hstrip : strip (32 :: item.val) = item.val :=
    Fields.strip_cons rfl (fun c hc => decide_eq_false (h.val_head c hc))
      fun c hc => decide_eq_false (h.val_last c hc)
  rw [hstr, parseHeaderDb_eq (by simp), consumeLine_append h.line, if_neg (by simp), hsplit]
  show parseHeaderDb (db.append item.key (strip (32 :: item.val))) rest = _
  rw [hstrip]

/-- **The entries are read back**, behind those which were there. -/
theorem parseHeaderDb_headerStr {items : List StrvarItem} (h : ∀ item ∈ items, IsEntry item)
    (db : StrvarDb) (flag : Bool) : parseHeaderDb db (headerStr ⟨items, flag⟩ ++ crlf) =
      some { db with items := db.items ++ items } := by
  induction items generalizing db with
  | nil =>
    have hend : consumeLine (headerStr ⟨[], flag⟩ ++ crlf) = ([], []) := by
      show consumeLine crlf = ([], [])
      decide
    rw [parseHeaderDb_eq (List.append_ne_nil_of_right_ne_nil _ (by decide)), hend,
      if_pos ⟨rfl, rfl⟩, List.append_nil]
  | cons item items ih =>
    obtain ⟨hitem, hitems⟩ := List.forall_mem_cons.1 h
    have hstr : headerStr ⟨item :: items, flag⟩ ++ crlf =
        item.key ++ [58, 32] ++ item.val ++ crlf ++ (headerStr ⟨items, flag⟩ ++ crlf) := by
      rw [headerStr, List.flatMap_cons, List.append_assoc]
      rfl
    rw [hstr, parseHeaderDb_cons hitem, ih hitems]
    simp [StrvarDb.append]

/-! ### Words -/

/-- Three words put together are cut at their blanks; the last one is what is left. -/
theorem split_words (ha : 32 ∉ a) (hb : 32 ∉ b) (n : ℕ) :
    split 32 (n + 3) (a ++ [32] ++ b ++ [32] ++ c) = a :: b :: split 32 (n + 1) c := by
  have hstr : a ++ [32] ++ b ++ [32] ++ c = a ++ 32 :: (b ++ 32 :: c) := by
    simp only [List.append_assoc, List.cons_append, List.nil_append]
  rw [hstr, split, Fields.split_append_cons (Fields.forall_ne_iff.2 ha) (decide_eq_true rfl),
    Fields.split_append_cons (Fields.forall_ne_iff.2 hb) (decide_eq_true rfl)]

theorem split_word (hc : 32 ∉ c) : split 32 n c = [c] :=
  Fields.split_of_forall (Fields.forall_ne_iff.2 hc)

/-- The string of a method holds no blank and no return. -/
theorem notMem_method (method : Option HttpMethod) :
    32 ∉ strtypeString HttpMethod.toString method ∧
      13 ∉ strtypeString HttpMethod.toString method := by
  rcases method with - | method
  · decide
  · cases method <;> decide

theorem notMem_version (version : Option HttpVersion) :
    32 ∉ strtypeString HttpVersion.toString version ∧
      13 ∉ strtypeString HttpVersion.toString version := by
  rcases version with - | version
  · decide
  · cases version <;> decide

theorem notMem_decimal {d : UInt8} (h : Bencode.isDigit d = false) (num : ℕ) :
    d ∉ Bencode.decimal num := by
  intro hmem
  rw [Bencode.isDigit_decimal hmem] at h
  cases h

theorem not_isSpace_of_isDigit {d : UInt8} (h : Bencode.isDigit d = true) :
    isSpace d = false ∧ d ≠ 45 ∧ d ≠ 43 := by
  rw [Bencode.isDigit, Bool.and_eq_true, decide_eq_true_iff, decide_eq_true_iff] at h
  refine ⟨?_, ?_, ?_⟩
  · rw [Bool.eq_false_iff]
    intro hspace
    simp only [isSpace, Bool.or_eq_true, Bool.and_eq_true, decide_eq_true_iff,
      UInt8.le_iff_toNat_le] at hspace
    rcases hspace with rfl | ⟨-, hle⟩
    · exact absurd h.1 (by decide)
    · exact absurd (h.1.trans hle) (by decide)
  · rintro rfl
    exact absurd h.1 (by decide)
  · rintro rfl
    exact absurd h.1 (by decide)

/-- `atoi` of digits. -/
theorem atoi_of_digits (h : ∀ d ∈ str, Bencode.isDigit d = true) : atoi str = Neoip.atoi str := by
  cases str with
  | nil => rfl
  | cons d str =>
    obtain ⟨hspace, hminus, hplus⟩ := not_isSpace_of_isDigit (h d (List.mem_cons_self ..))
    have hdrop : (d :: str).dropWhile isSpace = d :: str := by
      rw [List.dropWhile_cons, hspace, if_neg Bool.false_ne_true]
    rw [atoi, hdrop]
    simp [hminus, hplus]

/-- The numbers which are read back. -/
theorem atoi_decimal_eq_iff {num : ℕ} (h : num < 2 ^ 64) :
    atoi (Bencode.decimal num) = num ↔ num < 2 ^ 31 ∨ num = 2 ^ 64 - 1 := by
  rw [atoi_of_digits fun d => Bencode.isDigit_decimal, HttpUri.atoi_decimal_eq_iff h]

/-- What is neither escaped nor a delimiter is not in the path and the variables. -/
theorem notMem_pathqueryStr {d : UInt8} (hset : unreserved d = false)
    (hpath : pathCharset d = false) (hdigit : isXdigit d = false)
    (hdelim : d ∉ ([37, 38, 61, 63] : List UInt8)) (u : HttpUri) : d ∉ u.pathqueryStr := by
  simp only [List.mem_cons, List.not_mem_nil, or_false, not_or] at hdelim
  obtain ⟨hne, hand, heq, hquery⟩ := hdelim
  intro hmem
  rcases List.mem_append.1 hmem with hmem | hmem
  · exact notMem_escapeNotIn hpath hne hdigit hmem
  · rw [HttpUri.queryStr] at hmem
    split_ifs at hmem
    · rcases List.mem_cons.1 hmem with rfl | hmem
      · exact hquery rfl
      · refine HttpUri.notMem_intercalate hand (fun str hstr => ?_) hmem
        obtain ⟨item, -, rfl⟩ := List.mem_map.1 hstr
        exact HttpUri.notMem_varStr hset hne hdigit heq item
    · cases hmem

end HttpHeader

open HttpHeader

/-! ### Requests -/

namespace HttpReqhd

variable {reqhd : HttpReqhd} {u : HttpUri}

/-- **A request read back**: what goes through a conversion may be lost. -/
theorem parse_toHttp (hu : reqhd.uri = some u) (h : ∀ item ∈ reqhd.header_db.items, IsEntry item) :
    parse reqhd.toHttp = reqhd.method.bind fun method =>
      (HttpUri.ofString (uriStr reqhd.header_db.ignorecase u.pathqueryStr)).bind fun uri =>
        reqhd.version.bind fun version =>
          some ⟨some method, some uri, some version, reqhd.header_db.ignorecase⟩ := by
  obtain ⟨hmethod, hmethod13⟩ := notMem_method reqhd.method
  obtain ⟨hversion, hversion13⟩ := notMem_version reqhd.version
  have hpath : 32 ∉ u.pathqueryStr := notMem_pathqueryStr rfl rfl rfl (by decide) u
  have hpath13 : 13 ∉ u.pathqueryStr := notMem_pathqueryStr rfl rfl rfl (by decide) u
  have hline : ¬ crlf <:+: strtypeString HttpMethod.toString reqhd.method ++ [32] ++
      u.pathqueryStr ++ [32] ++ strtypeString HttpVersion.toString reqhd.version := by
    refine Fields.not_pair_infix_of_notMem ?_
    simp [hmethod13, hpath13, hversion13]
  have hconsume : consumeLine reqhd.toHttp = (strtypeString HttpMethod.toString reqhd.method ++
      [32] ++ u.pathqueryStr ++ [32] ++ strtypeString HttpVersion.toString reqhd.version,
      headerStr reqhd.header_db ++ crlf) := by
    rw [toHttp, hu]
    simp only [Option.map_some, Option.getD_some]
    rw [List.append_assoc, List.append_assoc _ crlf]
    exact consumeLine_append hline _
  have hdb : parseHeaderDb ⟨[], false⟩ (headerStr reqhd.header_db ++ crlf) =
      some ⟨reqhd.header_db.items, false⟩ := parseHeaderDb_headerStr h ⟨[], false⟩ _
  have hsplit := split_words (c := strtypeString HttpVersion.toString reqhd.version)
    hmethod hpath 2147483644
  rw [split_word hversion] at hsplit
  rw [parse, hconsume, hdb]
  dsimp only
  rw [show maxResult = 2147483644 + 3 from rfl, hsplit]
  simp only [HttpMethod.ofString_strtypeString, HttpVersion.ofString_strtypeString]
  rfl

/-- A request of which the round trip is asked: its uri is one of the http scheme, has no anchor,
and its `Host` is the one of the entries. -/
structure IsRequest (reqhd : HttpReqhd) (u : HttpUri) : Prop where
  uri : reqhd.uri = some u
  scheme : u.scheme = .http
  anchor : u.anchor = []
  host : (reqhd.header_db.ignorecase.values hostKey).head? = some u.hostportStr
  entries : ∀ item ∈ reqhd.header_db.items, IsEntry item

/-- The string of the uri is built again. -/
theorem IsRequest.uriStr (h : IsRequest reqhd u) :
    uriStr reqhd.header_db.ignorecase u.pathqueryStr = u.toString := by
  obtain ⟨tail, htail⟩ := List.head?_eq_some_iff.1 h.host
  have hcontain : reqhd.header_db.ignorecase.containKey hostKey = true := by
    rw [StrvarDb.containKey_iff, htail]
    exact List.cons_ne_nil _ _
  rw [HttpReqhd.uriStr, if_pos hcontain, StrvarDb.getFirstValue_eq, htail, HttpUri.toString,
    h.scheme, h.anchor, HttpUri.pathqueryStr]
  simp [HttpScheme.toString, HttpUri.schemeSepa]

/-- What is read back of a request which is not null. -/
theorem equal_fromHttp_iff (hu : reqhd.uri = some u) (str : Datum) :
    (fromHttp str).Equal reqhd ↔ ∃ read v, parse str = some read ∧ read.uri = some v ∧
      read.method = reqhd.method ∧ v.Equal u ∧ read.version = reqhd.version ∧
        read.header_db.Equal reqhd.header_db := by
  rw [fromHttp]
  constructor
  · rintro (⟨-, hnull⟩ | ⟨v, w, hv, hw, hmethod, hequal, hversion, hdb⟩)
    · rw [hu] at hnull
      cases hnull
    · obtain rfl := Option.some.inj (hu.symm.trans hw)
      rcases hparse : parse str with - | read
      · rw [hparse] at hv
        cases hv
      · rw [hparse] at hv hmethod hversion hdb
        exact ⟨read, v, rfl, hv, hmethod, hequal, hversion, hdb⟩
  · rintro ⟨read, v, hparse, hv, hmethod, hequal, hversion, hdb⟩
    rw [hparse]
    exact .inr ⟨v, u, hv, hu, hmethod, hequal, hversion, hdb⟩

/-- **Requests**: they are read back exactly when neither the method nor the version is `NONE`,
the path was not cleared, and the port is an `int` (or the number which `atoi` makes of a larger
one). -/
theorem fromHttp_iff (h : IsRequest reqhd u) : (fromHttp reqhd.toHttp).Equal reqhd ↔
    reqhd.method ≠ none ∧ reqhd.version ≠ none ∧ u.path.isNull = false ∧
      (u.port < 2 ^ 31 ∨ u.port = 2 ^ 64 - 1) := by
  rw [equal_fromHttp_iff h.uri, parse_toHttp h.uri h.entries, h.uriStr]
  constructor
  · rintro ⟨read, v, hread, hv, -, hequal, -, -⟩
    obtain ⟨method, hmethod, hread⟩ := Option.bind_eq_some_iff.1 hread
    obtain ⟨uri, huri, hread⟩ := Option.bind_eq_some_iff.1 hread
    obtain ⟨version, hversion, hread⟩ := Option.bind_eq_some_iff.1 hread
    obtain rfl := Option.some.inj hread
    obtain rfl := Option.some.inj hv
    obtain ⟨hpath, hport, -⟩ := u.string_equal_iff.1 ⟨uri, huri, hequal⟩
    refine ⟨?_, ?_, hpath, hport⟩
    · rw [hmethod]
      exact Option.some_ne_none method
    · rw [hversion]
      exact Option.some_ne_none version
  · rintro ⟨hmethod, hversion, hpath, hport⟩
    have hanchor : unescape u.anchor = u.anchor := by
      rw [h.anchor]
      rfl
    obtain ⟨v, hv, hequal⟩ := u.string_equal_iff.2 ⟨hpath, hport, hanchor⟩
    obtain ⟨method, hmethod⟩ := Option.ne_none_iff_exists'.1 hmethod
    obtain ⟨version, hversion⟩ := Option.ne_none_iff_exists'.1 hversion
    refine ⟨⟨some method, some v, some version, reqhd.header_db.ignorecase⟩, v, ?_, rfl,
      hmethod.symm, hequal, hversion.symm, .of_items rfl⟩
    rw [hmethod, hv, hversion]
    rfl

end HttpReqhd

/-! ### Replies -/

namespace HttpRephd

variable {rephd : HttpRephd}

/-- The first line, whose words are cut at their blanks up to the reason phrase. -/
theorem split_line (version : Option HttpVersion) (status_code : ℕ) (reason : Datum) :
    split 32 3 (strtypeString HttpVersion.toString version ++ [32] ++
      Bencode.decimal status_code ++ [32] ++ reason) =
        [strtypeString HttpVersion.toString version, Bencode.decimal status_code, reason] :=
  split_words (notMem_version version).1 (notMem_decimal rfl status_code) 0

/-- The first line of a reply; the reason phrase is cut where it holds a line break. -/
theorem consumeLine_toHttp (rephd : HttpRephd) : ∃ reason,
    (consumeLine rephd.toHttp).1 = strtypeString HttpVersion.toString rephd.version ++ [32] ++
      Bencode.decimal rephd.status_code ++ [32] ++ reason ∧
        (crlf <:+: rephd.reason_phrase → reason ≠ rephd.reason_phrase) ∧
          (¬ crlf <:+: rephd.reason_phrase → reason = rephd.reason_phrase ∧
            (consumeLine rephd.toHttp).2 = headerStr rephd.header_db ++ crlf) := by
  have hpre : 13 ∉ strtypeString HttpVersion.toString rephd.version ++ [32] ++
      Bencode.decimal rephd.status_code ++ [32] := by
    simp [(notMem_version rephd.version).2, notMem_decimal (d := 13) rfl rephd.status_code]
  have hstr : rephd.toHttp = strtypeString HttpVersion.toString rephd.version ++ [32] ++
      Bencode.decimal rephd.status_code ++ [32] ++
        (rephd.reason_phrase ++ (crlf ++ (headerStr rephd.header_db ++ crlf))) := by
    simp only [toHttp, List.append_assoc]
  rw [hstr, consumeLine_append_left hpre]
  refine ⟨_, rfl, fun h => consumeLine_ne h _, fun h => ?_⟩
  rw [consumeLine_append h]
  exact ⟨rfl, rfl⟩

/-- What is read back of a reply: a null one, or the parts of the first line. -/
theorem fromHttp_toHttp_cases (rephd : HttpRephd) : fromHttp rephd.toHttp = null ∨ ∃ reason db,
    fromHttp rephd.toHttp = ⟨some (rephd.version.getD .v1_0),
      HttpHeader.atoi (Bencode.decimal rephd.status_code), reason, db⟩ ∧
        (crlf <:+: rephd.reason_phrase → reason ≠ rephd.reason_phrase) := by
  obtain ⟨reason, hline, hne, -⟩ := consumeLine_toHttp rephd
  rw [fromHttp, hline, split_line]
  simp only [HttpVersion.ofString_strtypeString]
  split
  · exact .inr ⟨reason, _, rfl, hne⟩
  · exact .inl rfl

/-- **A reply read back**, when its reason phrase is one line. -/
theorem fromHttp_toHttp (hreason : ¬ crlf <:+: rephd.reason_phrase)
    (h : ∀ item ∈ rephd.header_db.items, IsEntry item) : fromHttp rephd.toHttp =
      ⟨some (rephd.version.getD .v1_0), HttpHeader.atoi (Bencode.decimal rephd.status_code),
        rephd.reason_phrase, rephd.header_db.ignorecase⟩ := by
  obtain ⟨reason, hline, -, hrest⟩ := consumeLine_toHttp rephd
  obtain ⟨hone, hrest⟩ := hrest hreason
  have hdb : parseHeaderDb ⟨[], false⟩ (headerStr rephd.header_db ++ crlf) =
      some ⟨rephd.header_db.items, false⟩ := parseHeaderDb_headerStr h ⟨[], false⟩ _
  rw [fromHttp, hline, split_line, hrest, hone]
  simp only [hdb, HttpVersion.ofString_strtypeString]
  rfl

/-- A reply of which the round trip is asked. -/
structure IsReply (rephd : HttpRephd) : Prop where
  status_lt : rephd.status_code < 2 ^ 64
  entries : ∀ item ∈ rephd.header_db.items, IsEntry item

/-- **Replies**: they are read back exactly when they are null, or the version is not `NONE`, the
status code is an `int` (or the number which `atoi` makes of a larger one), and the reason phrase
is one line. -/
theorem fromHttp_iff (h : rephd.IsReply) : (fromHttp rephd.toHttp).Equal rephd ↔
      rephd.status_code = 0 ∨ rephd.version ≠ none ∧
        (rephd.status_code < 2 ^ 31 ∨ rephd.status_code = 2 ^ 64 - 1) ∧
          ¬ crlf <:+: rephd.reason_phrase := by
  constructor
  · rintro (⟨-, hnull⟩ | ⟨hread, -, hversion, hstatus, hreason, -⟩)
    · exact .inl hnull
    · right
      rcases fromHttp_toHttp_cases rephd with hnull | ⟨reason, db, heq, hne⟩
      · rw [hnull] at hread
        exact absurd rfl hread
      · rw [heq] at hversion hstatus hreason
        refine ⟨?_, (HttpHeader.atoi_decimal_eq_iff h.status_lt).1 hstatus,
          fun hpair => hne hpair hreason⟩
        rw [← hversion]
        exact Option.some_ne_none _
  · rintro (hnull | ⟨hversion, hstatus, hreason⟩)
    · refine .inl ⟨?_, hnull⟩
      rcases fromHttp_toHttp_cases rephd with heq | ⟨reason, db, heq, -⟩
      · rw [heq]
        rfl
      · rw [heq, hnull]
        rfl
    · by_cases hzero : rephd.status_code = 0
      · refine .inl ⟨?_, hzero⟩
        rw [fromHttp_toHttp hreason h.entries, hzero]
        rfl
      · obtain ⟨version, hversion⟩ := Option.ne_none_iff_exists'.1 hversion
        have hback := (HttpHeader.atoi_decimal_eq_iff h.status_lt).2 hstatus
        rw [fromHttp_toHttp hreason h.entries, hback, hversion]
        exact .inr ⟨hzero, hzero, hversion.symm, rfl, rfl, .of_items rfl⟩

end HttpRephd

end Neoip
