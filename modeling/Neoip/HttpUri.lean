/-
Neoip/HttpUri.lean

Uris: `http_uri_t`, with `strvar_item_t` and `http_scheme_t`.

An `HttpUri` is one which is not null: it has a host, in which there is no delimiter,
and its path begins at the root, unless it was cleared.  A null one is none.  The
assertion of `strvar_item_t`, that the key of a variable is not empty, is not made here:
the code goes on as it does without assertions.

The numbers are those of a platform where an `int` has 32 bits, a `long` and a `size_t`
64; `atoi` is the conversion to `int` of what `strtol` returns.
-/
import Neoip.Bencode
import Neoip.Escape
import Neoip.FilePathString

namespace Neoip

/-! ### Schemes -/

/-- `http_scheme_t`, less `NONE`. -/
inductive HttpScheme
  | http
  | https
  | rtmp
deriving DecidableEq, Repr

/-- `tolower`. -/
def lower (c : UInt8) : UInt8 := if 65 ≤ c ∧ c ≤ 90 then c + 32 else c

/-- What `casecmp` compares: the bytes before the first null one, in lower case. -/
def casefold (str : Datum) : Datum := (str.takeWhile (· ≠ 0)).map lower

namespace HttpScheme

def toString : HttpScheme → Datum
  | http => [104, 116, 116, 112]
  | https => [104, 116, 116, 112, 115]
  | rtmp => [114, 116, 109, 112]

def defaultPort : HttpScheme → ℕ
  | http => 80
  | https => 443
  | rtmp => 1935

/-- `from_string_nocase`. -/
def ofString (str : Datum) : Option HttpScheme :=
  if casefold str = http.toString then some http
  else if casefold str = https.toString then some https
  else if casefold str = rtmp.toString then some rtmp
  else none

theorem ofString_toString (scheme : HttpScheme) : ofString scheme.toString = some scheme := by
  cases scheme <;> decide

end HttpScheme

/-! ### Strings -/

/-- `find_substr`: the first occurrence. -/
def findSubstr (substr : Datum) : Datum → Option ℕ
  | [] => if substr = [] then some 0 else none
  | c :: mainstr =>
    if substr <+: c :: mainstr then some 0 else (findSubstr substr mainstr).map (· + 1)

/-- `atoi` of digits, as a `size_t`. -/
def atoi (str : Datum) : ℕ :=
  let word := min (Bencode.readDigits 0 str).1 (2 ^ 63 - 1) % 2 ^ 32
  if word < 2 ^ 31 then word else 2 ^ 64 - 2 ^ 32 + word

/-- `UNRESERVED_CHARSET`. -/
def unreserved (c : UInt8) : Bool :=
  (97 ≤ c && c ≤ 122) || (65 ≤ c && c ≤ 90) || (48 ≤ c && c ≤ 57) ||
    c ∈ ([45, 95, 46, 33, 126, 42, 39, 40, 41] : List UInt8)

/-- The characters which are not escaped in a path. -/
def pathCharset (c : UInt8) : Bool := c = 47 || unreserved c

/-! ### Variables -/

/-- `strvar_item_t`; it is null when its key is empty. -/
@[ext]
structure StrvarItem where
  key : Datum
  val : Datum
deriving DecidableEq

/-- `compare` finds no difference. -/
def StrvarItem.Equal (item other : StrvarItem) : Prop :=
  (item.key = [] ∧ other.key = []) ∨ item = other

/-! ### Uris -/

/-- The delimiters after the host: `:/?#`. -/
def isUriDelim (c : UInt8) : Bool := c = 58 || c = 47 || c = 63 || c = 35

/-- What is checked of the bytes of a string, one by one. -/
theorem forall_mem_of_all {p : UInt8 → Bool} {str : Datum} (h : str.all (fun c => !p c) = true) :
    ∀ c ∈ str, p c = false := by
  intro c hc
  simpa using List.all_eq_true.1 h c hc

/-- `http_uri_t`, when it is not null.  The path is null only where it was cleared. -/
@[ext]
structure HttpUri where
  scheme : HttpScheme
  host : Datum
  port : ℕ
  path : FilePath
  var : List StrvarItem
  anchor : Datum
  host_ne : host ≠ []
  host_delim : ∀ c ∈ host, isUriDelim c = false
  port_lt : port < 2 ^ 64
  path_rooted : path.isNull = true ∨ path.isAbsolute = true ∧ path.drvletter = []

namespace HttpUri

/-! ### `ctor_from_str` -/

/-- `://` -/
def schemeSepa : Datum := [58, 47, 47]

/-- The scheme, and what is left.  Where there is no separator its position is `npos`, and the
end of the separator 2. -/
def parseScheme (str : Datum) : Option HttpScheme × Datum :=
  match findSubstr schemeSepa str with
  | some endpos => (HttpScheme.ofString (str.take endpos), str.drop (endpos + 3))
  | none => (HttpScheme.ofString str, str.drop 2)

def parsePort (default_port : ℕ) (str : Datum) : ℕ × Datum :=
  if str.head? = some 58 then
    (atoi (str.tail.takeWhile Bencode.isDigit), str.tail.dropWhile Bencode.isDigit)
  else (default_port, str)

/-- The end of a path: `?#`. -/
def isPathEnd (c : UInt8) : Bool := c = 63 || c = 35

def parsePath (str : Datum) : FilePath × Datum :=
  if str.head? = some 47 then
    (.ofString (unescape (str.takeWhile fun c => !isPathEnd c)), str.dropWhile fun c => !isPathEnd c)
  else (.ofString [47], str)

/-- A variable: what is before the first `=`, and after it. -/
def parseVar (var : Datum) : StrvarItem :=
  ⟨unescape (var.takeWhile (· ≠ 61)), unescape (var.dropWhile (· ≠ 61)).tail⟩

def parseQuery (str : Datum) : List StrvarItem × Datum :=
  if str.head? = some 63 then
    (((str.tail.takeWhile (· ≠ 35)).splitOn 38).map parseVar, str.tail.dropWhile (· ≠ 35))
  else ([], str)

def parseAnchor (str : Datum) : Datum := if str.head? = some 35 then unescape str.tail else []

theorem atoi_lt (str : Datum) : atoi str < 2 ^ 64 := by
  rw [atoi]
  have hmod := Nat.mod_lt (min (Bencode.readDigits 0 str).1 (2 ^ 63 - 1)) (Nat.two_pow_pos 32)
  split_ifs <;> omega

theorem defaultPort_lt (scheme : HttpScheme) : scheme.defaultPort < 2 ^ 64 := by
  cases scheme <;> decide

theorem parsePort_lt {default_port : ℕ} (h : default_port < 2 ^ 64) (str : Datum) :
    (parsePort default_port str).1 < 2 ^ 64 := by
  rw [parsePort]
  split_ifs
  · exact atoi_lt _
  · exact h

/-- A string which begins with a separator is a path from the root. -/
theorem rooted_ofString (rest : Datum) : (FilePath.ofString (47 :: rest)).isAbsolute = true ∧
    (FilePath.ofString (47 :: rest)).drvletter = [] := by
  have hsplit : splitSepa (47 :: rest) = [[]] ++ splitSepa rest := splitSepa_append_cons [] rest rfl
  have hdrv : NoDrvletter (47 :: rest) := by
    intro name hname
    rw [hsplit] at hname
    obtain rfl := Option.some.inj hname
    exact List.not_mem_nil
  obtain ⟨hdrvletter, hnames⟩ := FilePath.ofString_eq (List.cons_ne_nil 47 rest) hdrv
  refine ⟨?_, hdrvletter⟩
  rw [(FilePath.isAbsolute_walk_of_eq hnames).1, isRooted_of_beginsAtRoot rfl]

theorem parsePath_rooted (str : Datum) : (parsePath str).1.isNull = true ∨
    (parsePath str).1.isAbsolute = true ∧ (parsePath str).1.drvletter = [] := by
  right
  rw [parsePath]
  split_ifs with hhead
  · cases str with
    | nil => cases hhead
    | cons c rest =>
      obtain rfl := Option.some.inj hhead
      rw [List.takeWhile_cons_of_pos rfl, unescape_cons_of_ne (by decide)]
      exact rooted_ofString _
  · exact rooted_ofString []

/-- The constructor from a string; the uri is null when the scheme is none of them, or the host
is empty. -/
def ofString (str : Datum) : Option HttpUri :=
  match parseScheme str with
  | (none, _) => none
  | (some scheme, str2parse) =>
    let host := str2parse.takeWhile fun c => !isUriDelim c
    let port := parsePort scheme.defaultPort (str2parse.dropWhile fun c => !isUriDelim c)
    let path := parsePath port.2
    let query := parseQuery path.2
    if h : host ≠ [] then
      some
        { scheme
          host
          port := port.1
          path := path.1
          var := query.1
          anchor := parseAnchor query.2
          host_ne := h
          host_delim := forall_mem_of_all List.all_takeWhile
          port_lt := parsePort_lt (defaultPort_lt scheme) _
          path_rooted := parsePath_rooted port.2 }
    else none

/-! ### `to_string` -/

def hostportStr (u : HttpUri) : Datum :=
  u.host ++ if u.port ≠ u.scheme.defaultPort then 58 :: Bencode.decimal u.port else []

def pathStr (u : HttpUri) : Datum := escapeNotIn pathCharset u.path.toString

/-- A variable; its value if any. -/
def varStr (item : StrvarItem) : Datum :=
  escapeNotIn unreserved item.key ++
    if item.val ≠ [] then 61 :: escapeNotIn unreserved item.val else []

def queryStr (u : HttpUri) : Datum :=
  if u.var ≠ [] then 63 :: [38].intercalate (u.var.map varStr) else []

def pathqueryStr (u : HttpUri) : Datum := u.pathStr ++ u.queryStr

def toString (u : HttpUri) : Datum :=
  u.scheme.toString ++ schemeSepa ++ u.hostportStr ++ u.pathStr ++ u.queryStr ++
    if u.anchor ≠ [] then 35 :: u.anchor else []

/-! ### `clear_hostport`, `clear_pathquery`, `clear_query` -/

def clearHostport (u : HttpUri) : HttpUri :=
  { u with
    host := [48, 46, 48, 46, 48, 46, 48]
    port := u.scheme.defaultPort
    host_ne := by decide
    host_delim := forall_mem_of_all rfl
    port_lt := defaultPort_lt u.scheme }

def clearPathquery (u : HttpUri) : HttpUri :=
  { u with
    path := .null
    var := []
    anchor := []
    path_rooted := .inl rfl }

/-! ### `operator ==` -/

/-- `compare` finds no difference. -/
def Equal (u v : HttpUri) : Prop :=
  u.scheme = v.scheme ∧ casefold u.host = casefold v.host ∧ u.port = v.port ∧
    u.path.name_db = v.path.name_db ∧ u.var.Forall₂ StrvarItem.Equal v.var ∧
      u.anchor = v.anchor

end HttpUri

end Neoip
