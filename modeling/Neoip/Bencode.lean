/-
Neoip/Bencode.lean

Variables of any type (`dvar_t`) and their bencoding (`bencode_t`).

The maps of `dvar_map_t` are `std::map`s: they are listed here by increasing
key.  `to_dvar` reads an `istringstream`; a reader takes what is left of it
and returns what it read with what is left then, or nothing when the source
returns a null `dvar_t`.  Formatted input skips the white space before it, as
the standard says.  A length is an `int` which wraps around; no string has a
negative one.

What is modelled is the build without assertions: with them the source does not
take an empty input, or a key which is twice in a map.

Main result: `toDvar_fromDvar`, what is bencoded is read back.
-/
import Mathlib.Tactic.Common
import Neoip.Bitfield

namespace Neoip

/-- `dvar_t`, less the types which have no bencoding. -/
inductive Dvar
  | integer (value : ℤ)
  | string (str : Datum)
  | array (arr : List Dvar)
  | map (inmap : List (Datum × Dvar))

namespace Dvar

/-- `std::map::insert`: a key which is there keeps its value. -/
def mapInsert (key : Datum) (dvar : Dvar) : List (Datum × Dvar) → List (Datum × Dvar)
  | [] => [(key, dvar)]
  | x :: inmap =>
    if key < x.1 then (key, dvar) :: x :: inmap
    else if x.1 < key then x :: mapInsert key dvar inmap
    else x :: inmap

mutual

/-- The integers are `int64_t`, the lengths of the strings are `int`s, and the keys of a map
increase. -/
def Ok : Dvar → Prop
  | .integer value => -2 ^ 63 ≤ value ∧ value < 2 ^ 63
  | .string str => str.length < 2 ^ 31
  | .array arr => OkArr arr
  | .map inmap => (inmap.map Prod.fst).Pairwise (· < ·) ∧ OkMap inmap

def OkArr : List Dvar → Prop
  | [] => True
  | dvar :: arr => dvar.Ok ∧ OkArr arr

def OkMap : List (Datum × Dvar) → Prop
  | [] => True
  | (key, dvar) :: inmap => key.length < 2 ^ 31 ∧ dvar.Ok ∧ OkMap inmap

end

theorem mapInsert_of_lt {key : Datum} {dvar : Dvar} {inmap : List (Datum × Dvar)}
    (h : ∀ k ∈ inmap.map Prod.fst, k < key) : mapInsert key dvar inmap = inmap ++ [(key, dvar)] := by
  induction inmap with
  | nil => rfl
  | cons x inmap ih =>
    have hx : x.1 < key := h x.1 List.mem_cons_self
    rw [mapInsert, if_neg (List.lt_asymm hx), if_pos hx,
      ih fun k hk => h k (List.mem_cons_of_mem _ hk)]
    rfl

end Dvar

namespace Bencode

/-! ### Characters -/

def digit (n : ℕ) : UInt8 := 48 + UInt8.ofNat n

def isDigit (c : UInt8) : Bool := 48 ≤ c.toNat && c.toNat ≤ 57

def digitVal (c : UInt8) : ℕ := c.toNat - 48

def isSpace (c : UInt8) : Bool := c = 32 || (9 ≤ c.toNat && c.toNat ≤ 13)

/-! ### `from_dvar` -/

def decimalAux : ℕ → ℕ → Datum
  | 0, _ => []
  | fuel + 1, n => if n < 10 then [digit n] else decimalAux fuel (n / 10) ++ [digit (n % 10)]

/-- `oss << n`. -/
def decimal (n : ℕ) : Datum := decimalAux (n + 1) n

def signed (value : ℤ) : Datum :=
  if value < 0 then 45 :: decimal value.natAbs else decimal value.natAbs

/-- A string with its length. -/
def lengthString (str : Datum) : Datum := decimal str.length ++ 58 :: str

mutual

def fromDvar : Dvar → Datum
  | .integer value => 105 :: (signed value ++ [101])
  | .string str => lengthString str
  | .array arr => 108 :: (fromArr arr ++ [101])
  | .map inmap => 100 :: (fromMap inmap ++ [101])

def fromArr : List Dvar → Datum
  | [] => []
  | dvar :: arr => fromDvar dvar ++ fromArr arr

def fromMap : List (Datum × Dvar) → Datum
  | [] => []
  | (key, item) :: inmap => lengthString key ++ (fromDvar item ++ fromMap inmap)

end

/-! ### `to_dvar_iss` -/

def skipSpace (iss : Datum) : Datum := iss.dropWhile isSpace

/-- The digits at the front, with those which were read before. -/
def readDigits : ℕ → Datum → ℕ × Datum
  | val, [] => (val, [])
  | val, c :: iss => if isDigit c then readDigits (val * 10 + digitVal c) iss else (val, c :: iss)

/-- `iss >> val` on an `int64_t`. -/
def readInt64 (iss : Datum) : Option (ℤ × Datum) :=
  let iss := skipSpace iss
  let neg := iss.head? = some 45
  let iss := if neg || iss.head? = some 43 then iss.tail else iss
  if iss.head?.any isDigit then
    let (val, iss) := readDigits 0 iss
    let val : ℤ := if neg then -val else val
    if -2 ^ 63 ≤ val ∧ val < 2 ^ 63 then some (val, iss) else none
  else none

/-- The case `'i'`.  After a number which is not read nothing else is, and the last character
is none. -/
def readInteger (iss : Datum) : Option (Dvar × Datum) := do
  let (val, iss) ← readInt64 iss
  match skipSpace iss with
  | 101 :: iss => some (.integer val, iss)
  | _ => none

/-- The case of a digit, which is `len` at first. -/
def readString (len : ℕ) (iss : Datum) : Option (Dvar × Datum) :=
  match readDigits len iss with
  | (len, 58 :: iss) =>
    let len := len % 2 ^ 32
    if 2 ^ 31 ≤ len ∨ iss.length < len then none
    else some (.string (iss.take len), iss.drop len)
  | _ => none

mutual

def toDvarIss : ℕ → Datum → Option (Dvar × Datum)
  | 0, _ => none
  | fuel + 1, iss =>
    match skipSpace iss with
    | [] => none
    | c :: iss =>
      if c = 105 then readInteger iss
      else if isDigit c then readString (digitVal c) iss
      else if c = 108 then toArrIss fuel [] iss
      else if c = 100 then toMapIss fuel [] iss
      else none

/-- The loop of the case `'l'`. -/
def toArrIss : ℕ → List Dvar → Datum → Option (Dvar × Datum)
  | 0, _, _ => none
  | _, _, [] => none
  | fuel + 1, arr, c :: iss =>
    if c = 101 then some (.array arr, iss)
    else
      match toDvarIss fuel (c :: iss) with
      | none => none
      | some (tmp, iss) => toArrIss fuel (arr ++ [tmp]) iss

/-- The loop of the case `'d'`. -/
def toMapIss : ℕ → List (Datum × Dvar) → Datum → Option (Dvar × Datum)
  | 0, _, _ => none
  | _, _, [] => none
  | fuel + 1, inmap, c :: iss =>
    if c = 101 then some (.map inmap, iss)
    else
      match toDvarIss fuel (c :: iss) with
      | some (.string tmp_key, iss) =>
        match toDvarIss fuel iss with
        | none => none
        | some (tmp_var, iss) => toMapIss fuel (Dvar.mapInsert tmp_key tmp_var inmap) iss
      | _ => none

end

/-- `to_dvar`: what follows the variable is left.  Each turn of the loops reads a character,
so the length of the string is enough. -/
def toDvar (str : Datum) : Option Dvar := (toDvarIss (str.length + 1) str).map Prod.fst

/-! ### Digits are read back -/

section Digits

variable {n : ℕ} {c : UInt8} {str rest : Datum}

theorem isDigit_digit (h : n < 10) : isDigit (digit n) = true := by
  have : ∀ n : Fin 10, isDigit (digit n) = true := by decide
  exact this ⟨n, h⟩

theorem digitVal_digit (h : n < 10) : digitVal (digit n) = n := by
  have : ∀ n : Fin 10, digitVal (digit n) = n := by decide
  exact this ⟨n, h⟩

theorem readDigits_append (hstr : ∀ c ∈ str, isDigit c = true) (val : ℕ) :
    readDigits val (str ++ rest) = readDigits (readDigits val str).1 rest := by
  induction str generalizing val with
  | nil => rfl
  | cons c str ih =>
    rw [List.cons_append, readDigits, readDigits, if_pos (hstr c List.mem_cons_self),
      if_pos (hstr c List.mem_cons_self), ih fun c hc => hstr c (List.mem_cons_of_mem _ hc)]

theorem readDigits_of_not_digit (h : isDigit c = false) (val : ℕ) :
    readDigits val (c :: rest) = (val, c :: rest) := by
  rw [readDigits, h]
  rfl

theorem decimalAux_spec {fuel : ℕ} (hfuel : n < fuel) :
    (∀ c ∈ decimalAux fuel n, isDigit c = true) ∧ (readDigits 0 (decimalAux fuel n)).1 = n ∧
      decimalAux fuel n ≠ [] := by
  induction fuel generalizing n with
  | zero => exact absurd hfuel (Nat.not_lt_zero n)
  | succ fuel ih =>
    rw [decimalAux]
    split_ifs with hn
    · refine ⟨?_, ?_, List.cons_ne_nil _ _⟩
      · intro c hc
        rw [List.mem_singleton.1 hc, isDigit_digit hn]
      · simp [readDigits, isDigit_digit hn, digitVal_digit hn]
    · have hmod : n % 10 < 10 := Nat.mod_lt n (by decide)
      obtain ⟨hdigit, hval, hne⟩ := ih (n := n / 10) (by omega)
      refine ⟨?_, ?_, by simp⟩
      · intro c hc
        rcases List.mem_append.1 hc with hc | hc
        · exact hdigit c hc
        · rw [List.mem_singleton.1 hc, isDigit_digit hmod]
      · rw [readDigits_append hdigit, hval, readDigits, isDigit_digit hmod, digitVal_digit hmod]
        simp only [if_true, readDigits]
        omega

theorem isDigit_decimal (hc : c ∈ decimal n) : isDigit c = true :=
  (decimalAux_spec n.lt_succ_self).1 c hc

/-- A number is read back, up to the first character which is no digit. -/
theorem readDigits_decimal (h : isDigit c = false) :
    readDigits 0 (decimal n ++ c :: rest) = (n, c :: rest) := by
  obtain ⟨hdigit, hval, -⟩ := decimalAux_spec n.lt_succ_self
  rw [decimal, readDigits_append hdigit, hval, readDigits_of_not_digit h]

theorem decimal_eq_cons (n : ℕ) : ∃ c l, decimal n = c :: l ∧ isDigit c = true := by
  obtain ⟨c, l, h⟩ := List.exists_cons_of_ne_nil (decimalAux_spec n.lt_succ_self).2.2
  exact ⟨c, l, h, isDigit_decimal (h ▸ List.mem_cons_self)⟩

end Digits

/-! ### Variables are read back -/

section RoundTrip

variable {c : UInt8} {iss rest : Datum}

theorem not_isSpace_of_isDigit (h : isDigit c = true) : isSpace c = false := by
  simp only [isDigit, Bool.and_eq_true, decide_eq_true_eq] at h
  have hne : c ≠ 32 := by
    rintro rfl
    exact absurd h.1 (by decide)
  simp only [isSpace, decide_eq_false hne, Bool.false_or, Bool.and_eq_false_iff,
    decide_eq_false_iff_not]
  right
  omega

theorem skipSpace_cons (h : isSpace c = false) : skipSpace (c :: iss) = c :: iss := by
  rw [skipSpace, List.dropWhile_cons, h]
  rfl

theorem readInt64_signed {value : ℤ} (h : -2 ^ 63 ≤ value ∧ value < 2 ^ 63) :
    readInt64 (signed value ++ 101 :: rest) = some (value, 101 :: rest) := by
  obtain ⟨c, l, hc, hdigit⟩ := decimal_eq_cons value.natAbs
  have hread : readDigits 0 (decimal value.natAbs ++ 101 :: rest) = (value.natAbs, 101 :: rest) :=
    readDigits_decimal rfl
  rw [hc, List.cons_append] at hread
  have hne : ∀ {d : UInt8}, isDigit d = false → c ≠ d := by
    rintro d hd rfl
    rw [hd] at hdigit
    cases hdigit
  by_cases hneg : value < 0
  · -- a sign, then the digits
    have hval : -(value.natAbs : ℤ) = value := by omega
    rw [signed, if_pos hneg, List.cons_append, readInt64, skipSpace_cons rfl, hc, List.cons_append]
    simp only [List.head?_cons, decide_true, Bool.true_or, if_true, List.tail_cons,
      Option.any_some, hdigit, hread, hval, if_pos h]
  · have hval : (value.natAbs : ℤ) = value := by omega
    have h45 : c ≠ 45 := hne rfl
    have h43 : c ≠ 43 := hne rfl
    rw [signed, if_neg hneg, hc, List.cons_append, readInt64,
      skipSpace_cons (not_isSpace_of_isDigit hdigit)]
    simp only [List.head?_cons, Option.some.injEq, h45, h43, decide_false, Bool.or_self,
      Bool.false_eq_true, if_false, Option.any_some, hdigit, if_true, hread, hval, if_pos h]

theorem readInteger_signed {value : ℤ} (h : -2 ^ 63 ≤ value ∧ value < 2 ^ 63) :
    readInteger (signed value ++ 101 :: rest) = some (.integer value, rest) := by
  rw [readInteger, readInt64_signed h]
  rfl

theorem readString_lengthString (str : Datum) : ∃ c l, lengthString str ++ rest = c :: l ∧
    isDigit c = true ∧
      (str.length < 2 ^ 31 → readString (digitVal c) l = some (.string str, rest)) := by
  obtain ⟨c, l, hc, hdigit⟩ := decimal_eq_cons str.length
  refine ⟨c, l ++ 58 :: (str ++ rest), ?_, hdigit, fun hlen => ?_⟩
  · rw [lengthString, hc]
    simp
  · have hmod : str.length % 2 ^ 32 = str.length := Nat.mod_eq_of_lt (by omega)
    have hread : readDigits 0 (decimal str.length ++ 58 :: (str ++ rest)) =
        (str.length, 58 :: (str ++ rest)) := readDigits_decimal rfl
    rw [hc, List.cons_append, readDigits, if_pos hdigit, Nat.zero_mul, Nat.zero_add] at hread
    rw [readString, hread]
    simp only [hmod]
    rw [if_neg (by simp only [List.length_append]; omega), List.take_left, List.drop_left]

/-- A string starts with a digit, which no other variable does. -/
theorem toDvarIss_lengthString {str : Datum} (hlen : str.length < 2 ^ 31) (fuel : ℕ) :
    toDvarIss (fuel + 1) (lengthString str ++ rest) = some (.string str, rest) := by
  obtain ⟨c, l, hcons, hdigit, hread⟩ := readString_lengthString str
  have hne : c ≠ 105 := by
    rintro rfl
    cases hdigit
  rw [hcons, toDvarIss, skipSpace_cons (not_isSpace_of_isDigit hdigit)]
  simp only [if_neg hne, if_pos hdigit, hread hlen]

theorem lengthString_eq_cons (str rest : Datum) :
    ∃ c l, lengthString str ++ rest = c :: l ∧ c ≠ 101 := by
  obtain ⟨c, l, hcons, hdigit, -⟩ := readString_lengthString str
  refine ⟨c, l, hcons, ?_⟩
  rintro rfl
  cases hdigit

theorem length_lengthString_pos (str : Datum) : 0 < (lengthString str).length := by
  rw [lengthString, List.length_append, List.length_cons]
  omega

/-- No variable starts like the end of a list. -/
theorem fromDvar_eq_cons (dvar : Dvar) (rest : Datum) :
    ∃ c l, fromDvar dvar ++ rest = c :: l ∧ c ≠ 101 := by
  cases dvar with
  | integer value => exact ⟨105, _, by rw [fromDvar]; rfl, by decide⟩
  | string str =>
    rw [fromDvar]
    exact lengthString_eq_cons str rest
  | array arr => exact ⟨108, _, by rw [fromDvar]; rfl, by decide⟩
  | map inmap => exact ⟨100, _, by rw [fromDvar]; rfl, by decide⟩

theorem length_fromDvar_pos (dvar : Dvar) : 0 < (fromDvar dvar).length := by
  obtain ⟨c, l, h, -⟩ := fromDvar_eq_cons dvar []
  rw [List.append_nil] at h
  rw [h]
  exact Nat.succ_pos _

mutual

/-- **A bencoded variable is read back**, and what follows it is left. -/
theorem toDvarIss_fromDvar : ∀ (dvar : Dvar) (rest : Datum) (fuel : ℕ), dvar.Ok →
    (fromDvar dvar).length ≤ fuel → toDvarIss fuel (fromDvar dvar ++ rest) = some (dvar, rest)
  | dvar, rest, 0, _, hfuel => by
    have := length_fromDvar_pos dvar
    omega
  | .integer value, rest, fuel + 1, hok, _ => by
    rw [Dvar.Ok] at hok
    rw [fromDvar, List.cons_append, List.append_assoc, toDvarIss, skipSpace_cons rfl]
    exact readInteger_signed hok
  | .string str, rest, fuel + 1, hok, _ => by
    rw [Dvar.Ok] at hok
    rw [fromDvar]
    exact toDvarIss_lengthString hok fuel
  | .array arr, rest, fuel + 1, hok, hfuel => by
    rw [Dvar.Ok] at hok
    rw [fromDvar, List.length_cons, List.length_append] at hfuel
    rw [fromDvar, List.cons_append, List.append_assoc, toDvarIss, skipSpace_cons rfl]
    exact toArrIss_fromArr arr [] rest fuel hok (Nat.le_of_succ_le_succ hfuel)
  | .map inmap, rest, fuel + 1, hok, hfuel => by
    rw [Dvar.Ok] at hok
    rw [fromDvar, List.length_cons, List.length_append] at hfuel
    rw [fromDvar, List.cons_append, List.append_assoc, toDvarIss, skipSpace_cons rfl]
    exact toMapIss_fromMap inmap [] rest fuel hok.1 hok.2 (Nat.le_of_succ_le_succ hfuel)

theorem toArrIss_fromArr : ∀ (arr before : List Dvar) (rest : Datum) (fuel : ℕ), Dvar.OkArr arr →
    (fromArr arr).length + 1 ≤ fuel →
      toArrIss fuel before (fromArr arr ++ 101 :: rest) = some (.array (before ++ arr), rest)
  | [], before, rest, fuel + 1, _, _ => by
    rw [fromArr, List.nil_append, toArrIss, if_pos rfl, List.append_nil]
  | dvar :: arr, before, rest, fuel + 1, hok, hfuel => by
    rw [Dvar.OkArr] at hok
    rw [fromArr, List.length_append] at hfuel
    have hpos := length_fromDvar_pos dvar
    have hread := toDvarIss_fromDvar dvar (fromArr arr ++ 101 :: rest) fuel hok.1 (by omega)
    obtain ⟨c, l, hcons, hne⟩ := fromDvar_eq_cons dvar (fromArr arr ++ 101 :: rest)
    rw [fromArr, List.append_assoc, hcons, toArrIss, if_neg hne, ← hcons, hread]
    simp only []
    rw [toArrIss_fromArr arr (before ++ [dvar]) rest fuel hok.2 (by omega), List.append_assoc]
    rfl

theorem toMapIss_fromMap : ∀ (inmap before : List (Datum × Dvar)) (rest : Datum) (fuel : ℕ),
    ((before ++ inmap).map Prod.fst).Pairwise (· < ·) → Dvar.OkMap inmap →
      (fromMap inmap).length + 1 ≤ fuel →
        toMapIss fuel before (fromMap inmap ++ 101 :: rest) = some (.map (before ++ inmap), rest)
  | [], before, rest, fuel + 1, _, _, _ => by
    rw [fromMap, List.nil_append, toMapIss, if_pos rfl, List.append_nil]
  | (key, item) :: inmap, before, rest, fuel + 1, hsorted, hok, hfuel => by
    rw [Dvar.OkMap] at hok
    rw [fromMap, List.length_append, List.length_append] at hfuel
    have hpos := length_lengthString_pos key
    obtain ⟨f, rfl⟩ : ∃ f, fuel = f + 1 := ⟨fuel - 1, by omega⟩
    have hkey : toDvarIss (f + 1) (lengthString key ++ (fromDvar item ++ (fromMap inmap ++
        101 :: rest))) = some (.string key, fromDvar item ++ (fromMap inmap ++ 101 :: rest)) :=
      toDvarIss_lengthString hok.1 f
    have hitem := toDvarIss_fromDvar item (fromMap inmap ++ 101 :: rest) (f + 1) hok.2.1 (by omega)
    obtain ⟨c, l, hcons, hne⟩ :=
      lengthString_eq_cons key (fromDvar item ++ (fromMap inmap ++ 101 :: rest))
    -- the key is greater than those which were read before
    have hlt : ∀ k ∈ before.map Prod.fst, k < key := by
      intro k hk
      rw [List.map_append, List.pairwise_append] at hsorted
      exact hsorted.2.2 k hk key List.mem_cons_self
    have happend : before ++ (key, item) :: inmap = before ++ [(key, item)] ++ inmap := by simp
    rw [happend] at hsorted ⊢
    rw [fromMap, List.append_assoc, List.append_assoc, hcons, toMapIss, if_neg hne, ← hcons, hkey]
    simp only [hitem]
    rw [Dvar.mapInsert_of_lt hlt,
      toMapIss_fromMap inmap (before ++ [(key, item)]) rest (f + 1) hsorted hok.2.2 (by omega)]

end

/-- **Bencoding is faithful.** -/
theorem toDvar_fromDvar {dvar : Dvar} (h : dvar.Ok) : toDvar (fromDvar dvar) = some dvar := by
  have hread := toDvarIss_fromDvar dvar [] ((fromDvar dvar).length + 1) h (Nat.le_succ _)
  rw [List.append_nil] at hread
  rw [toDvar, hread]
  rfl

end RoundTrip

end Bencode

end Neoip
