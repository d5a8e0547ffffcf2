/-
Neoip/HttpHeader.lean

The headers of the requests and of the replies: `http_reqhd_t`, `http_rephd_t` and the
`strvar_db_t` which holds their entries.

The build is the one without assertions, so a key may be empty.  A method or a version
which is `NONE` is none.  The functions on a `StrvarDb` see of it
the values under a key, in their order (`values`): the first one is read, `update`
replaces it, or adds one where there is none, and `remove` takes it away.
-/
import Neoip.Fields
import Neoip.HttpUri

namespace Neoip

/-! ### `strtype_t` -/

/-- `to_string`; the one of `NONE` is registered too. -/
def strtypeString {T : Type*} (registered : T → Datum) : Option T → Datum
  | none => [78, 79, 78, 69]
  | some type_val => registered type_val

/-- `from_string_nocase`. -/
def strtypeOfString {T : Type*} (registered : T → Datum) (string_map : List T) (str : Datum) :
    Option T :=
  string_map.find? fun type_val => casefold (registered type_val) = casefold str

/-- `http_method_t`, less `NONE`. -/
inductive HttpMethod
  | get
  | post
  | head
deriving DecidableEq, Repr

namespace HttpMethod

def toString : HttpMethod → Datum
  | get => [71, 69, 84]
  | post => [80, 79, 83, 84]
  | head => [72, 69, 65, 68]

def ofString : Datum → Option HttpMethod := strtypeOfString toString [get, post, head]

theorem ofString_strtypeString (method : Option HttpMethod) :
    ofString (strtypeString toString method) = method := by
  rcases method with - | method
  · rfl
  · cases method <;> rfl

end HttpMethod

/-- `http_version_t`, less `NONE`. -/
inductive HttpVersion
  | v1_0
  | v1_1
deriving DecidableEq, Repr

namespace HttpVersion

def toString : HttpVersion → Datum
  | v1_0 => [72, 84, 84, 80, 47, 49, 46, 48]
  | v1_1 => [72, 84, 84, 80, 47, 49, 46, 49]

def ofString : Datum → Option HttpVersion := strtypeOfString toString [v1_0, v1_1]

theorem ofString_strtypeString (version : Option HttpVersion) :
    ofString (strtypeString toString version) = version := by
  rcases version with - | version
  · rfl
  · cases version <;> rfl

end HttpVersion

/-! ### `strvar_db_t` -/

/-- `strvar_db_t`. -/
structure StrvarDb where
  items : List StrvarItem
  key_ignorecase : Bool
deriving DecidableEq

namespace StrvarDb

/-- `keycmp` finds no difference. -/
def keyEq (db : StrvarDb) (key1 key2 : Datum) : Bool :=
  if db.key_ignorecase then casefold key1 = casefold key2 else key1 = key2

def firstKeyIdx (db : StrvarDb) (key : Datum) : Option ℕ :=
  db.items.findIdx? fun item => db.keyEq item.key key

def containKey (db : StrvarDb) (key : Datum) : Bool := (db.firstKeyIdx key).isSome

def getFirstValue (db : StrvarDb) (key : Datum) : Datum :=
  match db.firstKeyIdx key with
  | none => []
  | some key_idx => (db.items[key_idx]?.map StrvarItem.val).getD []

def append (db : StrvarDb) (key val : Datum) : StrvarDb :=
  { db with items := db.items ++ [⟨key, val⟩] }

def update (db : StrvarDb) (key val : Datum) : StrvarDb :=
  match db.firstKeyIdx key with
  | none => db.append key val
  | some key_idx => { db with items := db.items.modify key_idx fun item => { item with val } }

def remove (db : StrvarDb) (idx : ℕ) : StrvarDb := { db with items := db.items.eraseIdx idx }

/-- `key_ignorecase(true)`. -/
def ignorecase (db : StrvarDb) : StrvarDb := { db with key_ignorecase := true }

/-- `compare` finds no difference. -/
def Equal (db other : StrvarDb) : Prop := db.items.Forall₂ StrvarItem.Equal other.items

theorem Equal.of_items {db other : StrvarDb} (h : db.items = other.items) : db.Equal other := by
  rw [Equal, h]
  exact List.forall₂_same.2 fun _ _ => .inr rfl

/-! The values under a key -/

/-- The values of the variables with a key, in their order. -/
def values (db : StrvarDb) (key : Datum) : List Datum :=
  (db.items.filter fun item => db.keyEq item.key key).map StrvarItem.val

variable {db : StrvarDb} {key val : Datum}

theorem keyEq_self (db : StrvarDb) (key : Datum) : db.keyEq key key = true := by
  simp [keyEq]

/-- Variables without the key hold no value of it. -/
theorem filter_keyEq_eq_nil {items : List StrvarItem}
    (h : ∀ x ∈ items, db.keyEq x.key key = false) :
    items.filter (fun item => db.keyEq item.key key) = [] := by
  rw [List.filter_eq_nil_iff]
  intro x hx
  simp [h x hx]

/-- No variable has the key, or there is a first one with it. -/
theorem firstKeyIdx_cases (db : StrvarDb) (key : Datum) :
    db.firstKeyIdx key = none ∧ db.values key = [] ∨
      ∃ before item after, db.items = before ++ item :: after ∧
        db.firstKeyIdx key = some before.length ∧ db.keyEq item.key key = true ∧
          (∀ x ∈ before, db.keyEq x.key key = false) := by
  rcases Fields.forall_or_exists_cut (fun item => db.keyEq item.key key) db.items with
    hnone | ⟨before, item, after, hitems, hitem, hbefore⟩
  · refine .inl ⟨?_, ?_⟩
    · rw [firstKeyIdx, List.findIdx?_eq_none_iff]
      exact hnone
    · rw [values, filter_keyEq_eq_nil hnone, List.map_nil]
  · refine .inr ⟨before, item, after, hitems, ?_, hitem, hbefore⟩
    have hfind : before.findIdx? (fun item => db.keyEq item.key key) = none :=
      List.findIdx?_eq_none_iff.2 hbefore
    rw [firstKeyIdx, hitems, List.findIdx?_append, hfind, List.findIdx?_cons, if_pos hitem]
    simp

theorem values_of_items {before after : List StrvarItem} {item : StrvarItem}
    (hitems : db.items = before ++ item :: after) (hitem : db.keyEq item.key key = true)
    (hbefore : ∀ x ∈ before, db.keyEq x.key key = false) : db.values key =
      item.val :: (after.filter fun item => db.keyEq item.key key).map StrvarItem.val := by
  rw [values, hitems, List.filter_append, filter_keyEq_eq_nil hbefore, List.nil_append]
  simp [hitem]

theorem containKey_iff : db.containKey key = true ↔ db.values key ≠ [] := by
  rcases firstKeyIdx_cases db key with ⟨hidx, hvalues⟩ | ⟨before, item, after, hitems, hidx, hitem,
    hbefore⟩
  · simp [containKey, hidx, hvalues]
  · simp [containKey, hidx, values_of_items hitems hitem hbefore]

theorem getFirstValue_eq : db.getFirstValue key = (db.values key).headD [] := by
  rcases firstKeyIdx_cases db key with ⟨hidx, hvalues⟩ | ⟨before, item, after, hitems, hidx, hitem,
    hbefore⟩
  · simp [getFirstValue, hidx, hvalues]
  · simp [getFirstValue, hidx, values_of_items hitems hitem hbefore, hitems]

/-- What is modified is the item after as many. -/
theorem modify_append_cons {T : Type*} (before : List T) (item : T) (after : List T) (f : T → T) :
    (before ++ item :: after).modify before.length f = before ++ f item :: after :=
  List.modifyTailIdx_add (List.modifyHead f) 0 before (item :: after)

/-- The comparison of keys stays what it was. -/
theorem keyEq_update (db : StrvarDb) (key val key1 key2 : Datum) :
    (db.update key val).keyEq key1 key2 = db.keyEq key1 key2 := by
  rw [update]
  split
  · rfl
  · rfl

/-- The first value is the new one, and the other ones are kept. -/
theorem values_update : (db.update key val).values key = val :: (db.values key).tail := by
  rcases firstKeyIdx_cases db key with ⟨hidx, hvalues⟩ | ⟨before, item, after, hitems, hidx, hitem,
    hbefore⟩
  · have hnew : (db.update key val).items = db.items ++ [⟨key, val⟩] := by
      rw [update, hidx]
      rfl
    have hnone : db.items.filter (fun item => db.keyEq item.key key) = [] :=
      List.map_eq_nil_iff.1 hvalues
    simp only [values, hnew, keyEq_update, List.filter_append, hnone]
    simp [keyEq_self]
  · have hnew : (db.update key val).items = before ++ { item with val } :: after := by
      rw [update, hidx]
      show db.items.modify before.length _ = _
      rw [hitems, modify_append_cons]
    rw [values_of_items hitems hitem hbefore,
      values_of_items hnew ((db.keyEq_update key val _ _).trans hitem)
        fun x hx => (db.keyEq_update key val _ _).trans (hbefore x hx)]
    simp only [keyEq_update, List.tail_cons]

/-- The first value is taken away. -/
theorem values_remove {idx : ℕ} (h : db.firstKeyIdx key = some idx) :
    (db.remove idx).values key = (db.values key).tail := by
  rcases firstKeyIdx_cases db key with ⟨hidx, -⟩ | ⟨before, item, after, hitems, hidx, hitem,
    hbefore⟩
  · rw [hidx] at h
    cases h
  · obtain rfl := Option.some.inj (hidx.symm.trans h)
    have hrest : (db.remove before.length).items = before ++ after := by
      rw [remove, hitems]
      simp [List.eraseIdx_append_of_length_le]
    rw [values_of_items hitems hitem hbefore, values, hrest]
    show ((before ++ after).filter fun item => db.keyEq item.key key).map StrvarItem.val = _
    rw [List.filter_append, filter_keyEq_eq_nil hbefore]
    rfl

end StrvarDb

/-! ### Lines and numbers -/

namespace HttpHeader

/-- `"\r\n"` -/
def crlf : Datum := [13, 10]

/-- `consume_line`: the line, and what is left. -/
def consumeLine (base_str : Datum) : Datum × Datum :=
  match findSubstr crlf base_str with
  | none => (base_str, [])
  | some end_of_line => (base_str.take end_of_line, base_str.drop (end_of_line + 2))

/-- A line which ends was longer than what is left, and one which does not leaves nothing. -/
theorem length_consumeLine (base_str : Datum) (h : base_str ≠ []) :
    (consumeLine base_str).2.length < base_str.length := by
  have hpos := List.length_pos_iff.2 h
  rw [consumeLine]
  split
  · exact hpos
  · rw [List.length_drop]
    omega

/-- `split` at one character. -/
def split (delimiter : UInt8) : ℕ → Datum → List Datum :=
  Fields.split fun c => decide (c = delimiter)

/-- `strip`, of the blanks only. -/
def strip : Datum → Datum := Fields.strip fun c => decide (c = 32)

/-- The default of `max_result`. -/
def maxResult : ℕ := 2 ^ 31 - 1

/-- `isspace` -/
def isSpace (c : UInt8) : Bool := c = 32 || (9 ≤ c && c ≤ 13)

/-- `atoi` of any string, as a `size_t` or an `uint64_t`: `strtol` cast to an `int`, with its
sign. -/
def atoi (str : Datum) : ℕ :=
  let word := str.dropWhile isSpace
  if word.head? = some 45 then
    let low := (2 ^ 64 - min (Bencode.readDigits 0 word.tail).1 (2 ^ 63)) % 2 ^ 32
    if low < 2 ^ 31 then low else 2 ^ 64 - 2 ^ 32 + low
  else if word.head? = some 43 then Neoip.atoi word.tail
  else Neoip.atoi word

/-- The loop which parses the message header, `header_db` what was parsed so far; none when a line
is bogus. -/
def parseHeaderDb (header_db : StrvarDb) (str : Datum) : Option StrvarDb :=
  if h : str = [] then some header_db
  else
    have := length_consumeLine str h
    if (consumeLine str).1 = [] ∧ (consumeLine str).2 = [] then some header_db
    else
      match split 58 2 (consumeLine str).1 with
      | [key, val] => parseHeaderDb (header_db.append key (strip val)) (consumeLine str).2
      | _ => none
termination_by str.length

/-- One turn of the loop. -/
theorem parseHeaderDb_eq {str : Datum} (h : str ≠ []) (header_db : StrvarDb) :
    parseHeaderDb header_db str =
      if (consumeLine str).1 = [] ∧ (consumeLine str).2 = [] then some header_db
      else
        match split 58 2 (consumeLine str).1 with
        | [key, val] => parseHeaderDb (header_db.append key (strip val)) (consumeLine str).2
        | _ => none := by
  rw [parseHeaderDb, dif_neg h]

/-- The entries, one a line. -/
def headerStr (header_db : StrvarDb) : Datum :=
  header_db.items.flatMap fun item => item.key ++ [58, 32] ++ item.val ++ crlf

end HttpHeader

open HttpHeader

/-! ### `http_reqhd_t` -/

/-- `http_reqhd_t`; a null uri is none. -/
structure HttpReqhd where
  method : Option HttpMethod
  uri : Option HttpUri
  version : Option HttpVersion
  header_db : StrvarDb

namespace HttpReqhd

/-- The default constructor: a null object. -/
def null : HttpReqhd := ⟨some .get, none, some .v1_1, ⟨[], true⟩⟩

/-- `compare` finds no difference. -/
def Equal (reqhd other : HttpReqhd) : Prop :=
  (reqhd.uri = none ∧ other.uri = none) ∨ ∃ u v, reqhd.uri = some u ∧ other.uri = some v ∧
    reqhd.method = other.method ∧ u.Equal v ∧ reqhd.version = other.version ∧
      reqhd.header_db.Equal other.header_db

/-- `to_http`; the path and the variables of a null uri are empty. -/
def toHttp (reqhd : HttpReqhd) : Datum :=
  strtypeString HttpMethod.toString reqhd.method ++ [32] ++
    (reqhd.uri.map HttpUri.pathqueryStr).getD [] ++ [32] ++
      strtypeString HttpVersion.toString reqhd.version ++ crlf ++
        headerStr reqhd.header_db ++ crlf

/-- `"Host"` -/
def hostKey : Datum := [72, 111, 115, 116]

/-- `"http://"`, the value of `Host` or a dummy one, and the second word of the first line. -/
def uriStr (header_db : StrvarDb) (word : Datum) : Datum :=
  [104, 116, 116, 112, 58, 47, 47] ++
    (if header_db.containKey hostKey then header_db.getFirstValue hostKey
      else [48, 46, 48, 46, 48, 46, 48]) ++ word

/-- `from_http`, less the null objects it returns when the parsing fails. -/
def parse (reqhd_str : Datum) : Option HttpReqhd := do
  let header_db ← parseHeaderDb ⟨[], false⟩ (consumeLine reqhd_str).2
  match split 32 maxResult (consumeLine reqhd_str).1 with
  | [word0, word1, word2] => do
    let method ← HttpMethod.ofString word0
    let uri ← HttpUri.ofString (uriStr header_db.ignorecase word1)
    let version ← HttpVersion.ofString word2
    some ⟨some method, some uri, some version, header_db.ignorecase⟩
  | _ => none

def fromHttp (reqhd_str : Datum) : HttpReqhd := (parse reqhd_str).getD null

end HttpReqhd

/-! ### `http_rephd_t` -/

/-- `http_rephd_t`; it is null when its status code is zero. -/
structure HttpRephd where
  version : Option HttpVersion
  status_code : ℕ
  reason_phrase : Datum
  header_db : StrvarDb

namespace HttpRephd

/-- The default constructor: a null object. -/
def null : HttpRephd := ⟨some .v1_1, 0, [], ⟨[], true⟩⟩

/-- `compare` finds no difference. -/
def Equal (rephd other : HttpRephd) : Prop :=
  (rephd.status_code = 0 ∧ other.status_code = 0) ∨
    rephd.status_code ≠ 0 ∧ other.status_code ≠ 0 ∧ rephd.version = other.version ∧
      rephd.status_code = other.status_code ∧ rephd.reason_phrase = other.reason_phrase ∧
        rephd.header_db.Equal other.header_db

/-- `to_http` -/
def toHttp (rephd : HttpRephd) : Datum :=
  strtypeString HttpVersion.toString rephd.version ++ [32] ++
    Bencode.decimal rephd.status_code ++ [32] ++ rephd.reason_phrase ++ crlf ++
      headerStr rephd.header_db ++ crlf

/-- `from_http`; a version which is none of them is taken for the older one, as some servers
answer with their own. -/
def fromHttp (rephd_str : Datum) : HttpRephd :=
  match split 32 3 (consumeLine rephd_str).1 with
  | word0 :: word1 :: words =>
    match parseHeaderDb ⟨[], false⟩ (consumeLine rephd_str).2 with
    | some header_db =>
      { version := some ((HttpVersion.ofString word0).getD .v1_0)
        status_code := HttpHeader.atoi word1
        reason_phrase := words.headD []
        header_db := header_db.ignorecase }
    | none => null
  | _ => null

end HttpRephd

end Neoip
