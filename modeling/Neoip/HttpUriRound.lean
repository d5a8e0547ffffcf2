/-
Neoip/HttpUriRound.lean

Uris are read back from their string.

The parts of the string are cut where they were joined: what is escaped holds no
delimiter, and each search for the next one runs into the part which begins with it.
So the constructor reads everything as it was, but the port, which goes through
`atoi`, and the anchor, which is unescaped without having been escaped
(`ofString_toString`).  What is read from any other string has the form of a uri when
there is a separator after the scheme, and nothing between the port and what follows
it.

Main results: `codec_string_iff` and `form_iff`, together `uri_iff`.
-/
import Mathlib.Data.List.TakeWhile
import Neoip.HttpUri
import Neoip.SerialCodec

namespace Neoip

/-! ### Where a string is cut -/

section Cut

variable {p : UInt8 → Bool} {str rest : Datum}

theorem takeWhile_append_of_head? (h : ∀ c ∈ str, p c = true)
    (hrest : ∀ c, rest.head? = some c → p c = false) : (str ++ rest).takeWhile p = str := by
  rw [List.takeWhile_append_of_pos h]
  cases rest with
  | nil => rw [List.takeWhile_nil, List.append_nil]
  | cons c rest =>
    rw [List.takeWhile_cons, hrest c rfl, if_neg Bool.false_ne_true, List.append_nil]

theorem dropWhile_append_of_head? (h : ∀ c ∈ str, p c = true)
    (hrest : ∀ c, rest.head? = some c → p c = false) : (str ++ rest).dropWhile p = rest := by
  rw [List.dropWhile_append_of_pos h]
  cases rest with
  | nil => rfl
  | cons c rest => rw [List.dropWhile_cons, hrest c rfl, if_neg Bool.false_ne_true]

/-- What follows does not go on, wherever the string is cut. -/
theorem takeWhile_append_dropWhile_append {α : Type*} {p : α → Bool} {rest : List α}
    (str : List α) (hrest : ∀ c, rest.head? = some c → p c = false) :
    (str ++ rest).takeWhile p = str.takeWhile p ∧
      (str ++ rest).dropWhile p = str.dropWhile p ++ rest := by
  induction str with
  | nil =>
    cases rest with
    | nil => exact ⟨rfl, rfl⟩
    | cons c rest =>
      rw [List.nil_append, List.takeWhile_cons, List.dropWhile_cons, hrest c rfl]
      exact ⟨rfl, rfl⟩
  | cons c str ih =>
    rw [List.cons_append, List.takeWhile_cons, List.takeWhile_cons, List.dropWhile_cons,
      List.dropWhile_cons, ih.1, ih.2]
    split_ifs
    · exact ⟨rfl, rfl⟩
    · exact ⟨rfl, rfl⟩

theorem head?_dropWhile (p : UInt8 → Bool) (str : Datum) :
    ∀ c, (str.dropWhile p).head? = some c → p c = false := by
  intro c hc
  have hnot := List.head?_dropWhile_not p str
  rw [hc] at hnot
  simpa using hnot

theorem findSubstr_append {c : UInt8} {substr : Datum} (h : c ∉ str) (rest : Datum) :
    findSubstr (c :: substr) (str ++ (c :: substr ++ rest)) = some str.length := by
  induction str with
  | nil =>
    rw [List.nil_append, List.cons_append, findSubstr, if_pos]
    · rfl
    · exact List.cons_prefix_cons.2 ⟨rfl, List.prefix_append _ _⟩
  | cons d str ih =>
    rw [List.cons_append, findSubstr, if_neg, ih fun hmem => h (List.mem_cons_of_mem _ hmem)]
    · rfl
    · intro hprefix
      exact h ((List.cons_prefix_cons.1 hprefix).1 ▸ List.mem_cons_self ..)

theorem eq_of_findSubstr {substr : Datum} {pos : ℕ} (h : findSubstr substr str = some pos) :
    str = str.take pos ++ (substr ++ str.drop (pos + substr.length)) := by
  induction str generalizing pos with
  | nil =>
    rw [findSubstr] at h
    split_ifs at h with hnil
    obtain rfl := Option.some.inj h
    rw [hnil]
    rfl
  | cons c str ih =>
    rw [findSubstr] at h
    split_ifs at h with hprefix
    · obtain rfl := Option.some.inj h
      obtain ⟨tail, htail⟩ := hprefix
      rw [← htail, Nat.zero_add, List.drop_left]
      rfl
    · obtain ⟨n, hn, rfl⟩ := Option.map_eq_some_iff.1 h
      have heq := ih hn
      rw [Nat.add_right_comm, List.take_succ_cons, List.drop_succ_cons, List.cons_append, ← heq]

end Cut

namespace HttpUri

variable {u v : HttpUri} {str rest : Datum}

/-! ### What the parts of the string hold -/

theorem unreserved_spec : unreserved 37 = false ∧ pathCharset 37 = false := by decide

/-- What is escaped does not end the path. -/
theorem isPathEnd_of_mem_escapeNotIn {charset : UInt8 → Bool} {c : UInt8}
    (hquery : charset 63 = false) (hanchor : charset 35 = false) (h : c ∈ escapeNotIn charset str) :
    isPathEnd c = false := by
  rw [Bool.eq_false_iff]
  intro hend
  rw [isPathEnd, Bool.or_eq_true, decide_eq_true_iff, decide_eq_true_iff] at hend
  rcases hend with rfl | rfl
  · exact notMem_escapeNotIn hquery (by decide) rfl h
  · exact notMem_escapeNotIn hanchor (by decide) rfl h

theorem isPathEnd_of_mem_pathStr {c : UInt8} (h : c ∈ u.pathStr) : isPathEnd c = false :=
  isPathEnd_of_mem_escapeNotIn rfl rfl h

/-- A path from the root begins with its separator, in its string too. -/
theorem exists_pathStr (h : u.path.isNull = false) : ∃ tail, u.path.toString = 47 :: tail ∧
    u.pathStr = 47 :: escapeNotIn pathCharset tail := by
  obtain ⟨habs, hdrv⟩ := u.path_rooted.resolve_left fun hnull =>
    Bool.false_ne_true (h.symm.trans hnull)
  have hhead : u.path.name_db.head? = some [] := by simpa [FilePath.isAbsolute] using habs
  obtain ⟨names, hnames⟩ : ∃ names, u.path.name_db = [] :: names := by
    cases hdb : u.path.name_db with
    | nil =>
      rw [hdb] at hhead
      cases hhead
    | cons name names =>
      rw [hdb] at hhead
      exact ⟨names, by rw [Option.some.inj hhead]⟩
  obtain ⟨tail, htail⟩ : ∃ tail, u.path.toString = 47 :: tail := by
    rw [FilePath.toString, FilePath.drvString, if_pos hdrv, List.nil_append, FilePath.namesString,
      hnames]
    split_ifs with hroot
    · exact ⟨[], rfl⟩
    · cases names with
      | nil => exact absurd rfl hroot
      | cons name names => exact ⟨_, rfl⟩
  refine ⟨tail, htail, ?_⟩
  rw [pathStr, htail, escapeNotIn_cons, if_pos (by decide)]
  rfl

theorem ofString_unescape_pathStr (h : u.path.isNull = false) :
    FilePath.ofString (unescape u.pathStr) = u.path := by
  obtain ⟨habs, hdrv⟩ := u.path_rooted.resolve_left fun hnull =>
    Bool.false_ne_true (h.symm.trans hnull)
  rw [pathStr, unescape_escapeNotIn unreserved_spec.2]
  refine FilePath.ofString_toString (.inr fun name hname => ?_)
  have hhead : u.path.name_db.head? = some [] := by simpa [FilePath.isAbsolute] using habs
  obtain rfl := Option.some.inj (hname.symm.trans hhead)
  exact List.not_mem_nil

theorem notMem_varStr {c : UInt8} (hset : unreserved c = false) (hne : c ≠ 37)
    (hdigit : isXdigit c = false) (heq : c ≠ 61) (item : StrvarItem) : c ∉ varStr item := by
  intro h
  rcases List.mem_append.1 h with h | h
  · exact notMem_escapeNotIn hset hne hdigit h
  · split_ifs at h
    · rcases List.mem_cons.1 h with h | h
      · exact heq h
      · exact notMem_escapeNotIn hset hne hdigit h
    · cases h

theorem notMem_intercalate {c : UInt8} {strs : List Datum} (hne : c ≠ 38)
    (h : ∀ str ∈ strs, c ∉ str) : c ∉ [38].intercalate strs := by
  induction strs with
  | nil => exact List.not_mem_nil
  | cons str strs ih =>
    have hstr := h str (List.mem_cons_self ..)
    have hstrs := ih fun s hs => h s (List.mem_cons_of_mem _ hs)
    cases strs with
    | nil => simpa using hstr
    | cons next strs =>
      rw [List.intercalate_cons_cons]
      intro hmem
      rcases List.mem_append.1 hmem with hmem | hmem
      · rcases List.mem_append.1 hmem with hmem | hmem
        · exact hstr hmem
        · exact hne (List.mem_singleton.1 hmem)
      · exact hstrs hmem

/-! ### Each part is read back -/

/-- The part of the string between the host and the path. -/
def portStr (u : HttpUri) : Datum :=
  if u.port ≠ u.scheme.defaultPort then 58 :: Bencode.decimal u.port else []

/-- The part of the string after the variables. -/
def anchorStr (u : HttpUri) : Datum := if u.anchor ≠ [] then 35 :: u.anchor else []

theorem head?_anchorStr {c : UInt8} (h : u.anchorStr.head? = some c) : c = 35 := by
  rw [anchorStr] at h
  split_ifs at h
  · exact (Option.some.inj h).symm
  · cases h

theorem head?_queryStr_anchorStr {c : UInt8} (h : (u.queryStr ++ u.anchorStr).head? = some c) :
    isPathEnd c = true := by
  rw [queryStr] at h
  split_ifs at h
  · obtain rfl := Option.some.inj h
    rfl
  · rw [head?_anchorStr h]
    rfl

/-- A variable is cut at the first `=`. -/
theorem parseVar_append_cons {key : Datum} (h : 61 ∉ key) (val : Datum) :
    parseVar (key ++ 61 :: val) = ⟨unescape key, unescape val⟩ := by
  have hkey : ∀ c ∈ key, decide (c ≠ 61) = true := fun c hc =>
    decide_eq_true fun heq => h (heq ▸ hc)
  have hrest : ∀ c, (61 :: val).head? = some c → decide (c ≠ 61) = false := by
    intro c hc
    obtain rfl := Option.some.inj hc
    rfl
  rw [parseVar, takeWhile_append_of_head? hkey hrest, dropWhile_append_of_head? hkey hrest]
  rfl

/-- A variable which is a key, and its value if any. -/
theorem parseVar_append {key : Datum} (h : 61 ∉ key) (val : Datum) :
    parseVar (key ++ if val ≠ [] then 61 :: val else []) = ⟨unescape key, unescape val⟩ := by
  split_ifs with hval
  · exact parseVar_append_cons h val
  · have hkey : ∀ c ∈ key, decide (c ≠ 61) = true := fun c hc =>
      decide_eq_true fun heq => h (heq ▸ hc)
    rw [not_not] at hval
    have hend : ∀ c, ([] : Datum).head? = some c → decide (c ≠ 61) = false := nofun
    rw [hval, parseVar, takeWhile_append_of_head? hkey hend, dropWhile_append_of_head? hkey hend]
    rfl

theorem parseVar_varStr (item : StrvarItem) : parseVar (varStr item) = item := by
  have hkey : 61 ∉ escapeNotIn unreserved item.key :=
    notMem_escapeNotIn (by decide) (by decide) (by decide)
  have hval : item.val ≠ [] ↔ escapeNotIn unreserved item.val ≠ [] := escapeNotIn_eq_nil.not.symm
  rw [varStr, if_congr hval rfl rfl, parseVar_append hkey, unescape_escapeNotIn unreserved_spec.1,
    unescape_escapeNotIn unreserved_spec.1]

theorem map_parseVar (var : List StrvarItem) : (var.map varStr).map parseVar = var := by
  rw [List.map_map]
  exact (List.map_congr_left fun item _ => parseVar_varStr item).trans (List.map_id var)

theorem parseAnchor_anchorStr : parseAnchor u.anchorStr = unescape u.anchor := by
  rw [anchorStr]
  split_ifs with h
  · rfl
  · rw [not_not] at h
    rw [h]
    rfl

/-- The variables are cut where they were joined. -/
theorem parseQuery_intercalate {strs : List Datum} (rest : Datum) (hne : strs ≠ [])
    (h : ∀ str ∈ strs, 35 ∉ str ∧ 38 ∉ str) (hrest : ∀ c, rest.head? = some c → c = 35) :
    parseQuery (63 :: ([38].intercalate strs ++ rest)) = (strs.map parseVar, rest) := by
  have hjoin : ∀ c ∈ [38].intercalate strs, decide (c ≠ 35) = true := by
    intro c hc
    refine decide_eq_true ?_
    rintro rfl
    exact notMem_intercalate (by decide) (fun str hstr => (h str hstr).1) hc
  have hend : ∀ c, rest.head? = some c → decide (c ≠ 35) = false := by
    intro c hc
    rw [hrest c hc]
    rfl
  rw [parseQuery, List.head?_cons, if_pos rfl, List.tail_cons,
    takeWhile_append_of_head? hjoin hend, dropWhile_append_of_head? hjoin hend,
    List.splitOn_intercalate 38 (fun str hstr => (h str hstr).2) hne]

theorem parseQuery_queryStr : parseQuery (u.queryStr ++ u.anchorStr) = (u.var, u.anchorStr) := by
  rw [queryStr]
  split_ifs with hvar
  · rw [List.cons_append, parseQuery_intercalate _ (by simpa using hvar) ?_
      fun c => head?_anchorStr, map_parseVar]
    intro str hstr
    obtain ⟨item, -, rfl⟩ := List.mem_map.1 hstr
    exact ⟨notMem_varStr (by decide) (by decide) (by decide) (by decide) item,
      notMem_varStr (by decide) (by decide) (by decide) (by decide) item⟩
  · rw [not_not] at hvar
    rw [hvar, List.nil_append, parseQuery, if_neg]
    intro h
    exact absurd (head?_anchorStr h) (by decide)

theorem parsePath_pathStr (h : u.path.isNull = false) :
    parsePath (u.pathStr ++ (u.queryStr ++ u.anchorStr)) = (u.path, u.queryStr ++ u.anchorStr) := by
  obtain ⟨tail, -, hstr⟩ := exists_pathStr h
  have hhead : (u.pathStr ++ (u.queryStr ++ u.anchorStr)).head? = some 47 := by
    rw [hstr]
    rfl
  have hpath : ∀ c ∈ u.pathStr, (!isPathEnd c) = true := fun c hc => by
    rw [isPathEnd_of_mem_pathStr hc]
    rfl
  have hrest : ∀ c, (u.queryStr ++ u.anchorStr).head? = some c → (!isPathEnd c) = false :=
    fun c hc => by
      rw [head?_queryStr_anchorStr hc]
      rfl
  rw [parsePath, if_pos hhead, takeWhile_append_of_head? hpath hrest,
    dropWhile_append_of_head? hpath hrest, ofString_unescape_pathStr h]

/-- The port as it is read back by an uri of a scheme. -/
def portOver (u : HttpUri) (scheme : HttpScheme) : ℕ :=
  if u.port ≠ u.scheme.defaultPort then atoi (Bencode.decimal u.port) else scheme.defaultPort

/-- The port as it is read back. -/
def portBack (u : HttpUri) : ℕ := u.portOver u.scheme

theorem portBack_lt (u : HttpUri) : u.portBack < 2 ^ 64 := by
  rw [portBack, portOver]
  split_ifs
  · exact atoi_lt _
  · exact defaultPort_lt _

theorem parsePort_portStr (scheme : HttpScheme)
    (hrest : ∀ c, rest.head? = some c → c = 47 ∨ isPathEnd c = true) :
    parsePort scheme.defaultPort (u.portStr ++ rest) = (u.portOver scheme, rest) := by
  have hdelim : ∀ c, rest.head? = some c → Bencode.isDigit c = false ∧ c ≠ 58 := by
    intro c hc
    rcases hrest c hc with rfl | hend
    · decide
    · rw [isPathEnd, Bool.or_eq_true, decide_eq_true_iff, decide_eq_true_iff] at hend
      rcases hend with rfl | rfl
      · decide
      · decide
  rw [portOver, portStr]
  split_ifs with hport
  · have hdigit : ∀ c ∈ Bencode.decimal u.port, Bencode.isDigit c = true :=
      fun c hc => Bencode.isDigit_decimal hc
    have hend : ∀ c, rest.head? = some c → Bencode.isDigit c = false := fun c hc => (hdelim c hc).1
    rw [parsePort, List.cons_append, List.head?_cons, if_pos rfl, List.tail_cons,
      takeWhile_append_of_head? hdigit hend, dropWhile_append_of_head? hdigit hend]
  · rw [List.nil_append, parsePort, if_neg]
    exact fun h => (hdelim 58 h).2 rfl

/-- **A string with the host and the port of a uri**: what is behind them is read as such. -/
theorem ofString_hostport (u : HttpUri) (scheme : HttpScheme) (rest : Datum)
    (hrest : ∀ c, rest.head? = some c → c = 47 ∨ isPathEnd c = true) :
    ∃ v, ofString (scheme.toString ++ schemeSepa ++ u.hostportStr ++ rest) = some v ∧
      v.scheme = scheme ∧ v.host = u.host ∧ v.port = u.portOver scheme ∧
        v.path = (parsePath rest).1 ∧ v.var = (parseQuery (parsePath rest).2).1 ∧
          v.anchor = parseAnchor (parseQuery (parsePath rest).2).2 := by
  have hparts : scheme.toString ++ schemeSepa ++ u.hostportStr ++ rest =
      scheme.toString ++ (schemeSepa ++ (u.host ++ (u.portStr ++ rest))) := by
    rw [hostportStr, portStr]
    simp only [List.append_assoc]
  have hscheme : parseScheme (scheme.toString ++ (schemeSepa ++ (u.host ++ (u.portStr ++ rest)))) =
      (some scheme, u.host ++ (u.portStr ++ rest)) := by
    have hcolon : 58 ∉ scheme.toString := by cases scheme <;> decide
    rw [parseScheme, schemeSepa, findSubstr_append hcolon]
    simp only [List.take_left, HttpScheme.ofString_toString, Prod.mk.injEq, true_and]
    rw [← List.append_assoc]
    exact List.drop_left' (by simp)
  have hhost : ∀ c ∈ u.host, (!isUriDelim c) = true := fun c hc => by
    rw [u.host_delim c hc]
    rfl
  have hdelim : ∀ c, (u.portStr ++ rest).head? = some c → (!isUriDelim c) = false := by
    intro c hc
    rw [portStr] at hc
    split_ifs at hc
    · obtain rfl := Option.some.inj hc
      rfl
    · rcases hrest c hc with rfl | hend
      · rfl
      · rw [isPathEnd, Bool.or_eq_true, decide_eq_true_iff, decide_eq_true_iff] at hend
        rcases hend with rfl | rfl
        · rfl
        · rfl
  rw [hparts, ofString]
  simp only [hscheme, takeWhile_append_of_head? hhost hdelim,
    dropWhile_append_of_head? hhost hdelim, parsePort_portStr scheme hrest, dif_pos u.host_ne]
  exact ⟨_, rfl, rfl, rfl, rfl, rfl, rfl, rfl⟩

/-- **A uri read back**: all but the port and the anchor is as it was. -/
theorem ofString_toString (h : u.path.isNull = false) : ofString u.toString = some
    { u with
      port := u.portBack
      anchor := unescape u.anchor
      port_lt := u.portBack_lt } := by
  have hparts : u.toString = u.scheme.toString ++ schemeSepa ++ u.hostportStr ++
      (u.pathStr ++ (u.queryStr ++ u.anchorStr)) := by
    rw [toString, anchorStr]
    simp only [List.append_assoc]
  have hrest : ∀ c, (u.pathStr ++ (u.queryStr ++ u.anchorStr)).head? = some c →
      c = 47 ∨ isPathEnd c = true := by
    intro c hc
    obtain ⟨tail, -, hstr⟩ := exists_pathStr h
    rw [hstr] at hc
    exact .inl (Option.some.inj hc).symm
  obtain ⟨v, hv, hscheme, hhost, hport, hpath, hvar, hanchor⟩ :=
    ofString_hostport u u.scheme _ hrest
  rw [parsePath_pathStr h] at hpath hvar hanchor
  rw [parseQuery_queryStr] at hvar hanchor
  rw [parseAnchor_anchorStr] at hanchor
  rw [hparts, hv]
  exact congrArg some (HttpUri.ext hscheme hhost hport hpath hvar hanchor)

/-! ### The codec -/

theorem atoi_decimal (n : ℕ) : atoi (Bencode.decimal n) =
    if min n (2 ^ 63 - 1) % 2 ^ 32 < 2 ^ 31 then min n (2 ^ 63 - 1) % 2 ^ 32
    else 2 ^ 64 - 2 ^ 32 + min n (2 ^ 63 - 1) % 2 ^ 32 := by
  have hread : (Bencode.readDigits 0 (Bencode.decimal n)).1 = n :=
    (Bencode.decimalAux_spec n.lt_succ_self).2.1
  rw [atoi, hread]

/-- The numbers which `atoi` reads back: those which are an `int`, and what it makes of the largest
number. -/
theorem atoi_decimal_eq_iff {n : ℕ} (h : n < 2 ^ 64) :
    atoi (Bencode.decimal n) = n ↔ n < 2 ^ 31 ∨ n = 2 ^ 64 - 1 := by
  rw [atoi_decimal]
  rcases Nat.lt_or_ge n (2 ^ 63) with hsmall | hlarge
  · rw [Nat.min_eq_left (by omega)]
    split_ifs <;> omega
  · have hmod : (2 ^ 63 - 1) % 2 ^ 32 = 2 ^ 32 - 1 := rfl
    rw [Nat.min_eq_right (by omega), hmod, if_neg (by omega)]
    omega

theorem portBack_eq_iff (u : HttpUri) :
    u.portBack = u.port ↔ u.port < 2 ^ 31 ∨ u.port = 2 ^ 64 - 1 := by
  rw [portBack, portOver]
  split_ifs with hport
  · exact atoi_decimal_eq_iff u.port_lt
  · rw [not_not] at hport
    have hdefault : u.scheme.defaultPort < 2 ^ 31 := by cases u.scheme <;> decide
    exact iff_of_true hport.symm (.inl (by omega))

/-- The string of a uri, null or not. -/
def uriString : Option HttpUri → Datum
  | none => [110, 117, 108, 108]
  | some u => u.toString

/-- The uri in a `serial_t`: its string as a datum, whose length is cast to an `uint32_t`. -/
def serial (u : Option HttpUri) : Datum :=
  writeUint32 ((uriString u).length % 2 ^ 32) ++ uriString u

/-- The uri at the front of a `serial_t`, and what is left; none when an exception is thrown. -/
def unserial (serial : Datum) : Option (Option HttpUri × Datum) :=
  (readUint32 serial).bind fun len =>
    if len.2.length < len.1 then none else some (ofString (len.2.take len.1), len.2.drop len.1)

/-- The uri is read back from its string, and from a `serial_t`. -/
structure RoundTrips (u : HttpUri) : Prop where
  string : ∃ v, ofString u.toString = some v ∧ v.Equal u
  serial : ∀ rest, ∃ v, unserial (serial (some u) ++ rest) = some (some v, rest) ∧ v.Equal u

theorem Equal.refl (u : HttpUri) : u.Equal u :=
  ⟨rfl, rfl, rfl, rfl, List.forall₂_same.2 fun _ _ => .inr rfl, rfl⟩

/-! ### What the constructor did -/

/-- What the constructor read of a string of which it made a uri. -/
theorem of_ofString (h : ofString str = some u) : ∃ str2parse,
    parseScheme str = (some u.scheme, str2parse) ∧
      u.host = str2parse.takeWhile (fun c => !isUriDelim c) ∧
        u.path = (parsePath (parsePort u.scheme.defaultPort
          (str2parse.dropWhile fun c => !isUriDelim c)).2).1 := by
  rw [ofString] at h
  rcases e : parseScheme str with ⟨scheme | scheme, str2parse⟩
  · rw [e] at h
    cases h
  · rw [e] at h
    dsimp only at h
    split_ifs at h
    obtain rfl := Option.some.inj h
    exact ⟨str2parse, rfl, rfl, rfl⟩

theorem exists_ofString {scheme : HttpScheme} (h : parseScheme str = (some scheme, rest))
    (hhost : rest.takeWhile (fun c => !isUriDelim c) ≠ []) : ∃ u, ofString str = some u := by
  rw [ofString, h]
  exact ⟨_, dif_pos hhost⟩

theorem isNull_parsePath (str : Datum) : (parsePath str).1.isNull = false := by
  rw [parsePath]
  split_ifs with hhead
  · cases str with
    | nil => cases hhead
    | cons c rest =>
      obtain rfl := Option.some.inj hhead
      rw [List.takeWhile_cons_of_pos rfl, unescape_cons_of_ne (by decide)]
      exact FilePath.isNull_ofString (List.cons_ne_nil _ _)
  · exact FilePath.isNull_ofString (List.cons_ne_nil _ _)

theorem isNull_path_of_ofString (h : ofString str = some u) : u.path.isNull = false := by
  obtain ⟨str2parse, -, -, hpath⟩ := of_ofString h
  rw [hpath]
  exact isNull_parsePath _

/-- A path which is not null has a name, the empty one of the root at least. -/
theorem isNull_path_iff (u : HttpUri) : u.path.isNull = true ↔ u.path.name_db = [] := by
  constructor
  · intro hnull
    rw [FilePath.isNull, Bool.and_eq_true] at hnull
    exact of_decide_eq_true hnull.2
  · intro hdb
    refine u.path_rooted.resolve_right fun hrooted => ?_
    have habs := hrooted.1
    rw [FilePath.isAbsolute, hdb] at habs
    exact Bool.false_ne_true habs

theorem unserial_serial (hlen : u.toString.length < 2 ^ 32) (rest : Datum) :
    unserial (serial (some u) ++ rest) = some (ofString u.toString, rest) := by
  have hread : readUint32 (serial (some u) ++ rest) =
      some (u.toString.length, u.toString ++ rest) := by
    rw [serial, List.append_assoc, readUint32_writeUint32 (Nat.mod_lt _ (by decide))]
    exact congrArg some (Prod.ext (Nat.mod_eq_of_lt hlen) rfl)
  rw [unserial, hread, Option.bind_some, if_neg, List.take_left, List.drop_left]
  rw [List.length_append]
  exact Nat.not_lt.2 (Nat.le_add_right _ _)

/-- A string which is too long leaves bytes behind. -/
theorem length_lt_of_unserial {v : Option HttpUri}
    (h : unserial (serial (some u)) = some (v, [])) : u.toString.length < 2 ^ 32 := by
  have hread : readUint32 (serial (some u)) = some (u.toString.length % 2 ^ 32, u.toString) :=
    readUint32_writeUint32 (Nat.mod_lt _ (by decide)) _
  rw [unserial, hread, Option.bind_some] at h
  split_ifs at h
  have hdrop : u.toString.drop (u.toString.length % 2 ^ 32) = [] :=
    (Prod.ext_iff.1 (Option.some.inj h)).2
  rw [List.drop_eq_nil_iff] at hdrop
  exact lt_of_le_of_lt hdrop (Nat.mod_lt _ (Nat.two_pow_pos 32))

/-- A uri is read back from its string exactly when its path was not cleared, its port is an `int`
(or the number which `atoi` makes of a larger one), and its anchor holds no escape sequence. -/
theorem string_equal_iff (u : HttpUri) : (∃ v, ofString u.toString = some v ∧ v.Equal u) ↔
    u.path.isNull = false ∧ (u.port < 2 ^ 31 ∨ u.port = 2 ^ 64 - 1) ∧
      unescape u.anchor = u.anchor := by
  constructor
  · rintro ⟨v, hv, hequal⟩
    have hnull : u.path.isNull = false := by
      rw [Bool.eq_false_iff, Ne, isNull_path_iff, ← hequal.2.2.2.1, ← isNull_path_iff,
        isNull_path_of_ofString hv]
      exact Bool.false_ne_true
    obtain rfl := Option.some.inj ((ofString_toString hnull).symm.trans hv)
    exact ⟨hnull, u.portBack_eq_iff.1 hequal.2.2.1, hequal.2.2.2.2.2⟩
  · rintro ⟨hnull, hport, hanchor⟩
    refine ⟨u, ?_, .refl u⟩
    rw [ofString_toString hnull]
    exact congrArg some (HttpUri.ext rfl rfl (u.portBack_eq_iff.2 hport) rfl rfl hanchor)

/-- **The codec**: a uri is read back exactly when it is from its string, and the length of its
string fits in the one of a datum. -/
theorem codec_string_iff (u : HttpUri) : u.RoundTrips ↔
    u.path.isNull = false ∧ (u.port < 2 ^ 31 ∨ u.port = 2 ^ 64 - 1) ∧
      unescape u.anchor = u.anchor ∧ u.toString.length < 2 ^ 32 := by
  constructor
  · intro h
    obtain ⟨hnull, hport, hanchor⟩ := u.string_equal_iff.1 h.string
    refine ⟨hnull, hport, hanchor, ?_⟩
    obtain ⟨w, hw, -⟩ := h.serial []
    rw [List.append_nil] at hw
    exact length_lt_of_unserial hw
  · rintro ⟨hnull, hport, hanchor, hlen⟩
    have hback := u.string_equal_iff.2 ⟨hnull, hport, hanchor⟩
    refine ⟨hback, fun rest => ?_⟩
    obtain ⟨v, hv, hequal⟩ := hback
    exact ⟨v, by rw [unserial_serial hlen, hv], hequal⟩

/-! ### The form of a uri -/

/-- A part of a string which is not there, or begins with a delimiter. -/
def IsPart (delim : UInt8) (p : UInt8 → Bool) (str : Datum) : Prop :=
  str = [] ∨ ∃ rest, str = delim :: rest ∧ ∀ c ∈ rest, p c = true

/-- `scheme://host[:port][path][?query][#anchor]`; the port is one of digits. -/
def HasForm (str : Datum) (u : HttpUri) : Prop := ∃ scheme port path query anchor,
  str = scheme ++ (schemeSepa ++ (u.host ++ (port ++ (path ++ (query ++ anchor))))) ∧
    scheme.map lower = u.scheme.toString ∧ IsPart 58 Bencode.isDigit port ∧
      IsPart 47 (fun c => !isPathEnd c) path ∧ IsPart 63 (· ≠ 35) query ∧
        IsPart 35 (fun _ => true) anchor

/-- Where the constructor reads a string which has not the form of a uri as one: when there is no
separator, when the scheme ends with a null byte, and when something comes after the port. -/
structure FormChecked (str : Datum) : Prop where
  sepa : findSubstr schemeSepa str = none → HttpScheme.ofString str = none
  parts : ∀ pos, findSubstr schemeSepa str = some pos →
    HttpScheme.ofString (str.take pos) ≠ none →
      ((str.drop (pos + 3)).takeWhile fun c => !isUriDelim c) ≠ [] →
        0 ∉ str.take pos ∧ ∀ port, ((str.drop (pos + 3)).dropWhile fun c => !isUriDelim c) =
          58 :: port → ∀ c, (port.dropWhile Bencode.isDigit).head? = some c →
            c = 47 ∨ isPathEnd c = true

variable {p : UInt8 → Bool} {c : UInt8}

theorem IsPart.head? (h : IsPart c p str) {d : UInt8} (hd : (str ++ rest).head? = some d) :
    d = c ∨ rest.head? = some d := by
  rcases h with rfl | ⟨tail, rfl, -⟩
  · exact .inr hd
  · exact .inl (Option.some.inj hd).symm

/-- A part is what a search for the end of it cuts. -/
theorem isPart_takeWhile (hhead : str.head? = some c) :
    IsPart c p (c :: str.tail.takeWhile p) ∧
      str = c :: str.tail.takeWhile p ++ str.tail.dropWhile p := by
  refine ⟨.inr ⟨_, rfl, List.all_eq_true.1 List.all_takeWhile⟩, ?_⟩
  rw [List.cons_append, List.takeWhile_append_dropWhile]
  exact (List.cons_head?_tail hhead).symm

theorem exists_path (h : ∀ c, str.head? = some c → c = 47 ∨ isPathEnd c = true) :
    ∃ path, IsPart 47 (fun c => !isPathEnd c) path ∧ str = path ++ (parsePath str).2 ∧
      ∀ c, (parsePath str).2.head? = some c → isPathEnd c = true := by
  rw [parsePath]
  split_ifs with hhead
  · obtain ⟨tail, rfl⟩ : ∃ tail, str = 47 :: tail :=
      ⟨str.tail, (List.cons_head?_tail hhead).symm⟩
    obtain ⟨hpart, heq⟩ := isPart_takeWhile (p := fun c => !isPathEnd c) hhead
    refine ⟨_, hpart, heq, fun c hc => ?_⟩
    simpa using head?_dropWhile _ _ c hc
  · refine ⟨[], .inl rfl, rfl, fun c hc => (h c hc).resolve_left ?_⟩
    rintro rfl
    exact hhead hc

theorem exists_query (h : ∀ c, str.head? = some c → isPathEnd c = true) :
    ∃ query, IsPart 63 (· ≠ 35) query ∧ str = query ++ (parseQuery str).2 ∧
      ∀ c, (parseQuery str).2.head? = some c → c = 35 := by
  rw [parseQuery]
  split_ifs with hhead
  · obtain ⟨hpart, heq⟩ := isPart_takeWhile (p := (· ≠ 35)) hhead
    exact ⟨_, hpart, heq, fun c hc => by simpa using head?_dropWhile _ _ c hc⟩
  · refine ⟨[], .inl rfl, rfl, fun c hc => ?_⟩
    have hend := h c hc
    rw [isPathEnd, Bool.or_eq_true, decide_eq_true_iff, decide_eq_true_iff] at hend
    refine hend.resolve_left ?_
    rintro rfl
    exact hhead hc

theorem isPart_anchor (h : ∀ c, str.head? = some c → c = 35) : IsPart 35 (fun _ => true) str := by
  cases str with
  | nil => exact .inl rfl
  | cons c rest => exact .inr ⟨rest, by rw [h c rfl], fun _ _ => rfl⟩

/-- What is a scheme in lower case holds neither a colon nor a null byte. -/
theorem notMem_of_map_lower {scheme : HttpScheme} (h : str.map lower = scheme.toString) :
    58 ∉ str ∧ 0 ∉ str := by
  have hlower : ∀ c ∈ str, lower c ∈ scheme.toString := fun c hc => h ▸ List.mem_map_of_mem hc
  constructor
  · intro hmem
    have hcolon := hlower 58 hmem
    revert hcolon
    cases scheme <;> decide
  · intro hmem
    have hnull := hlower 0 hmem
    revert hnull
    cases scheme <;> decide

theorem casefold_of_ofString {scheme : HttpScheme} (h : HttpScheme.ofString str = some scheme) :
    casefold str = scheme.toString := by
  rw [HttpScheme.ofString] at h
  split_ifs at h with hhttp hhttps hrtmp
  · obtain rfl := Option.some.inj h
    exact hhttp
  · obtain rfl := Option.some.inj h
    exact hhttps
  · obtain rfl := Option.some.inj h
    exact hrtmp

theorem not_isUriDelim_of_lower (h : lower c = 116 ∨ lower c = 109) : isUriDelim c = false := by
  rw [Bool.eq_false_iff]
  intro hdelim
  simp only [isUriDelim, Bool.or_eq_true, decide_eq_true_iff] at hdelim
  obtain ((rfl | rfl) | rfl) | rfl := hdelim <;> revert h <;> decide

/-- What is behind the first two bytes of a scheme: a letter, so no delimiter. -/
theorem takeWhile_drop_two_ne_nil {scheme : HttpScheme}
    (h : HttpScheme.ofString str = some scheme) :
    (str.drop 2).takeWhile (fun c => !isUriDelim c) ≠ [] := by
  have hletter : ∃ d, scheme.toString[2]? = some d ∧ (d = 116 ∨ d = 109) := by
    cases scheme with
    | http => exact ⟨116, rfl, .inl rfl⟩
    | https => exact ⟨116, rfl, .inl rfl⟩
    | rtmp => exact ⟨109, rfl, .inr rfl⟩
  obtain ⟨d, hd, hletter⟩ := hletter
  rw [← casefold_of_ofString h, casefold, List.getElem?_map, Option.map_eq_some_iff] at hd
  obtain ⟨c, hc, rfl⟩ := hd
  have hstr : str[2]? = some c := by
    obtain ⟨tail, htail⟩ := List.takeWhile_prefix (l := str) (fun c => decide (c ≠ 0))
    rw [← htail, List.getElem?_append_left (List.getElem?_eq_some_iff.1 hc).1, hc]
  rw [← List.head?_drop] at hstr
  rw [← List.cons_head?_tail hstr, List.takeWhile_cons_of_pos]
  · exact List.cons_ne_nil _ _
  · rw [not_isUriDelim_of_lower hletter]
    rfl

/-- Behind the port of a string which has the form of a uri comes the path, the variables or the
anchor. -/
theorem HasForm.checked (h : HasForm str u) (hu : ofString str = some u) :
    ∃ scheme, findSubstr schemeSepa str = some scheme.length ∧ str.take scheme.length = scheme ∧
      0 ∉ scheme ∧ ∀ port, ((str.drop (scheme.length + 3)).dropWhile fun c => !isUriDelim c) =
          58 :: port → ∀ c, (port.dropWhile Bencode.isDigit).head? = some c →
            c = 47 ∨ isPathEnd c = true := by
  obtain ⟨scheme, port, path, query, anchor, heq, hlower, hport, hpath, hquery, hanchor⟩ := h
  obtain ⟨hcolon, hnull⟩ := notMem_of_map_lower hlower
  have hpos : findSubstr schemeSepa str = some scheme.length := by
    rw [heq]
    exact findSubstr_append hcolon _
  refine ⟨scheme, hpos, ?_, hnull, fun portpath hafter c hc => ?_⟩
  · rw [heq, List.take_left]
  have hdrop : str.drop (scheme.length + 3) =
      u.host ++ (port ++ (path ++ (query ++ anchor))) := by
    rw [heq, ← List.append_assoc]
    exact List.drop_left' (by simp [schemeSepa])
  have hhost : u.host = (str.drop (scheme.length + 3)).takeWhile fun c => !isUriDelim c := by
    obtain ⟨str2parse, hparse, hhost, -⟩ := of_ofString hu
    rw [parseScheme, hpos] at hparse
    obtain rfl : str.drop (scheme.length + 3) = str2parse := (Prod.ext_iff.1 hparse).2
    exact hhost
  -- what follows the host is the port, the path, the query and the anchor
  have hrest : 58 :: portpath = port ++ (path ++ (query ++ anchor)) := by
    have happend : u.host ++ 58 :: portpath = u.host ++ (port ++ (path ++ (query ++ anchor))) := by
      rw [← hdrop, ← hafter, hhost, List.takeWhile_append_dropWhile]
    exact List.append_cancel_left happend
  have htail : ∀ {d}, (path ++ (query ++ anchor)).head? = some d → d = 47 ∨ isPathEnd d = true := by
    intro d hd
    rcases hpath.head? hd with rfl | hd
    · exact .inl rfl
    rcases hquery.head? hd with rfl | hd
    · exact .inr rfl
    rw [← List.append_nil anchor] at hd
    rcases hanchor.head? hd with rfl | hd
    · exact .inr rfl
    · cases hd
  rcases hport with rfl | ⟨digits, rfl, hdigits⟩
  -- no port was written, so a colon cannot follow the host
  · rw [List.nil_append] at hrest
    have hdelim : (58 : UInt8) = 47 ∨ isPathEnd 58 = true := htail (congrArg List.head? hrest.symm)
    exact absurd hdelim (by decide)
  · rw [(List.cons.inj hrest).2, List.append_eq, dropWhile_append_of_head? hdigits] at hc
    · exact htail hc
    intro d hd
    rcases htail hd with rfl | hend
    · rfl
    · rw [isPathEnd, Bool.or_eq_true, decide_eq_true_iff, decide_eq_true_iff] at hend
      rcases hend with rfl | rfl
      · rfl
      · rfl

/-- The parts of what is behind the host. -/
theorem exists_parts (hhead : ∀ c, str.head? = some c → isUriDelim c = true)
    (hport : ∀ port, str = 58 :: port → ∀ c, (port.dropWhile Bencode.isDigit).head? = some c →
      c = 47 ∨ isPathEnd c = true) : ∃ port path query anchor,
    str = port ++ (path ++ (query ++ anchor)) ∧ IsPart 58 Bencode.isDigit port ∧
      IsPart 47 (fun c => !isPathEnd c) path ∧ IsPart 63 (· ≠ 35) query ∧
        IsPart 35 (fun _ => true) anchor := by
  obtain ⟨port, rest, rfl, hport, hrest⟩ : ∃ port rest, str = port ++ rest ∧
      IsPart 58 Bencode.isDigit port ∧
        ∀ c, rest.head? = some c → c = 47 ∨ isPathEnd c = true := by
    by_cases hcolon : str.head? = some 58
    · obtain ⟨hpart, heq⟩ := isPart_takeWhile (p := Bencode.isDigit) hcolon
      exact ⟨_, _, heq, hpart, hport _ (List.cons_head?_tail hcolon).symm⟩
    · refine ⟨[], str, rfl, .inl rfl, fun c hc => ?_⟩
      have hdelim := hhead c hc
      simp only [isUriDelim, Bool.or_eq_true, decide_eq_true_iff] at hdelim
      obtain ((rfl | rfl) | rfl) | rfl := hdelim
      · exact absurd hc hcolon
      · exact .inl rfl
      · exact .inr rfl
      · exact .inr rfl
  obtain ⟨path, hpath, hpath_eq, hpath_head⟩ := exists_path hrest
  obtain ⟨query, hquery, hquery_eq, hquery_head⟩ := exists_query hpath_head
  refine ⟨port, path, query, _, ?_, hport, hpath, hquery, isPart_anchor hquery_head⟩
  rw [← hquery_eq, ← hpath_eq]

/-- **The form**: what a uri is made of has the form of one exactly when the checks hold which the
constructor does not make. -/
theorem form_iff (str : Datum) : (∀ u, ofString str = some u → HasForm str u) ↔
    FormChecked str := by
  constructor
  · intro h
    constructor
    -- without separator the scheme would be read of the whole string
    · intro hnone
      by_contra hscheme
      obtain ⟨scheme, hscheme⟩ := Option.ne_none_iff_exists'.1 hscheme
      have hparse : parseScheme str = (some scheme, str.drop 2) := by
        rw [parseScheme, hnone]
        exact Prod.ext hscheme rfl
      obtain ⟨u, hu⟩ := exists_ofString hparse (takeWhile_drop_two_ne_nil hscheme)
      obtain ⟨scheme', hsome, -⟩ := (h u hu).checked hu
      rw [hnone] at hsome
      cases hsome
    · intro pos hpos hscheme hhost
      obtain ⟨scheme, hscheme⟩ := Option.ne_none_iff_exists'.1 hscheme
      have hparse : parseScheme str = (some scheme, str.drop (pos + 3)) := by
        rw [parseScheme, hpos]
        exact Prod.ext hscheme rfl
      obtain ⟨u, hu⟩ := exists_ofString hparse hhost
      obtain ⟨scheme', hsome, htake, hnull, hport⟩ := (h u hu).checked hu
      obtain rfl := Option.some.inj (hpos.symm.trans hsome)
      exact ⟨htake.symm ▸ hnull, hport⟩
  · intro h u hu
    obtain ⟨str2parse, hparse, hhost, -⟩ := of_ofString hu
    rw [parseScheme] at hparse
    rcases hpos : findSubstr schemeSepa str with - | pos
    · rw [hpos, h.sepa hpos] at hparse
      cases (Prod.ext_iff.1 hparse).1
    · rw [hpos] at hparse
      obtain ⟨hscheme, rfl⟩ := Prod.ext_iff.1 hparse
      have hsome : HttpScheme.ofString (str.take pos) ≠ none := by
        rw [show HttpScheme.ofString (str.take pos) = some u.scheme from hscheme]
        exact Option.some_ne_none _
      obtain ⟨hnull, hport⟩ := h.parts pos hpos hsome (hhost ▸ u.host_ne)
      have hhead : ∀ c, ((str.drop (pos + 3)).dropWhile fun c => !isUriDelim c).head? = some c →
          isUriDelim c = true := fun c hc => by simpa using head?_dropWhile _ _ c hc
      obtain ⟨port, path, query, anchor, hparts, hform⟩ := exists_parts hhead hport
      refine ⟨str.take pos, port, path, query, anchor, ?_, ?_, hform⟩
      · rw [← hparts, hhost, List.takeWhile_append_dropWhile]
        exact eq_of_findSubstr hpos
      · rw [← casefold_of_ofString hscheme, casefold, List.takeWhile_eq_self_iff.2]
        intro c hc
        refine decide_eq_true ?_
        rintro rfl
        exact hnull hc

/-- **Uris**: which are read back from their string, and from which strings only what has the form
of a uri is read. -/
theorem uri_iff (u : HttpUri) (str : Datum) :
    (u.RoundTrips ↔ u.path.isNull = false ∧ (u.port < 2 ^ 31 ∨ u.port = 2 ^ 64 - 1) ∧
      unescape u.anchor = u.anchor ∧ u.toString.length < 2 ^ 32) ∧
      ((∀ v, ofString str = some v → HasForm str v) ↔ FormChecked str) :=
  ⟨codec_string_iff u, form_iff str⟩

/-- `http://h/#%41` -/
def escapedAnchor : HttpUri where
  scheme := .http
  host := [104]
  port := 80
  path := .ofString [47]
  var := []
  anchor := [37, 52, 49]
  host_ne := by decide
  host_delim := forall_mem_of_all rfl
  port_lt := by decide
  path_rooted := .inr (by decide)

/-- The anchor `%41` is read back as `A`; and `http` alone is the uri of the host `tp`. -/
theorem not_uri : ¬ escapedAnchor.RoundTrips ∧
    ∃ u, ofString [104, 116, 116, 112] = some u ∧ ¬ HasForm [104, 116, 116, 112] u := by
  constructor
  · intro h
    have hanchor := ((codec_string_iff _).1 h).2.2.1
    exact absurd hanchor (by decide)
  · have hsome : (ofString [104, 116, 116, 112]).isSome = true := by decide
    obtain ⟨u, hu⟩ := Option.isSome_iff_exists.1 hsome
    refine ⟨u, hu, fun hform => ?_⟩
    obtain ⟨scheme, hpos, -⟩ := hform.checked hu
    exact absurd hpos (by simp [findSubstr, schemeSepa])

end HttpUri

end Neoip
