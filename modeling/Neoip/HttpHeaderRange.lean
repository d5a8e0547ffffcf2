/-
Neoip/HttpHeaderRange.lean

The sizes and the ranges of files in headers: `Range`, `Content-Range` and
`Content-Length`.

A `file_size_t` is a number of 64 bits, of which one is the null one and one stands for
no limit; it is written in decimal and read by `atoi`, which gives an `int`.  So the
sizes below 2 GB are read back, and one more: the largest number, which `strtol` clamps
and the cast to an `int` makes -1 of.  What is read of any other value is what its
delimiters say (`RangeShape`, `ContentRangeShape`): the numbers are not looked at, and a
word which is none is zero, or what it begins with.

Main results: `HttpReqhd.range_setRange_iff`, `HttpRephd.contentRange_setContentRange_iff`,
`contentLength_setContentLength_iff` and the malformed values, together with the codecs
of the headers `headers_iff`.
-/
import Neoip.HttpHeaderRound
import Neoip.Unit

namespace Neoip

namespace HttpHeader

/-! ### Sizes -/

/-- `file_size_t::NONE_VAL` -/
def noneVal : ℕ := fileSizeNone.toNat

/-- `file_size_t::MAX_VAL` -/
def maxVal : ℕ := fileSizeMax.toNat

/-- `to_string` of a `file_size_t`. -/
def sizeString (offset : ℕ) : Datum :=
  if offset = noneVal then [110, 117, 108, 108]
  else if offset = maxVal then [77, 65, 88]
  else Bencode.decimal offset

/-- The sizes which `atoi` reads back. -/
def Readable (offset : ℕ) : Prop := offset < 2 ^ 31 ∨ offset = 2 ^ 64 - 1

instance (offset : ℕ) : Decidable (Readable offset) :=
  inferInstanceAs (Decidable (offset < 2 ^ 31 ∨ offset = 2 ^ 64 - 1))

variable {offset : ℕ} {str first last value : Datum}

/-- The null size and the one which stands for no limit are written as words, and read as zero. -/
theorem atoi_sizeString_eq_iff (hlt : offset < 2 ^ 64) :
    HttpHeader.atoi (sizeString offset) = offset ↔ Readable offset := by
  rw [sizeString]
  split_ifs with hnone hmax
  · have hzero : HttpHeader.atoi [110, 117, 108, 108] = 0 := by decide
    rw [hzero, hnone]
    decide
  · have hzero : HttpHeader.atoi [77, 65, 88] = 0 := by decide
    rw [hzero, hmax]
    decide
  · exact atoi_decimal_eq_iff hlt

/-- What is read is an `int`. -/
theorem atoi_bounds (str : Datum) :
    HttpHeader.atoi str < 2 ^ 31 ∨ 2 ^ 64 - 2 ^ 31 ≤ HttpHeader.atoi str := by
  have hdigits : ∀ str : Datum, Neoip.atoi str < 2 ^ 31 ∨ 2 ^ 64 - 2 ^ 31 ≤ Neoip.atoi str := by
    intro str
    rw [Neoip.atoi]
    split_ifs with hlt
    · exact .inl hlt
    · right
      omega
  rw [HttpHeader.atoi]
  dsimp only
  split_ifs with hminus hlt
  · exact .inl hlt
  · right
    omega
  · exact hdigits _
  · exact hdigits _

/-- It is neither the null size nor the one which stands for no limit. -/
theorem atoi_ne (str : Datum) : HttpHeader.atoi str ≠ noneVal ∧ HttpHeader.atoi str ≠ maxVal := by
  have hbounds := atoi_bounds str
  rw [noneVal, maxVal, fileSizeNone_toNat, fileSizeMax_toNat]
  omega

theorem notMem_sizeString {d : UInt8} (hdigit : Bencode.isDigit d = false)
    (hletter : d ∉ ([110, 117, 108, 77, 65, 88] : List UInt8)) (offset : ℕ) :
    d ∉ sizeString offset := by
  simp only [List.mem_cons, List.not_mem_nil, or_false, not_or] at hletter
  obtain ⟨hn, hu, hl, hM, hA, hX⟩ := hletter
  rw [sizeString]
  split_ifs
  · simp [hn, hu, hl]
  · simp [hM, hA, hX]
  · exact notMem_decimal hdigit offset

theorem sizeString_ne_nil (offset : ℕ) : sizeString offset ≠ [] := by
  rw [sizeString]
  split_ifs
  · exact List.cons_ne_nil _ _
  · exact List.cons_ne_nil _ _
  · exact (Bencode.decimalAux_spec offset.lt_succ_self).2.2

/-! ### Ranges -/

/-- `file_range_t`, null or not, its bounds in order or not. -/
structure AnyFileRange where
  beg : ℕ
  last : ℕ
deriving DecidableEq

namespace AnyFileRange

def null : AnyFileRange := ⟨noneVal, noneVal⟩

def IsNull (range : AnyFileRange) : Prop := range.beg = noneVal ∨ range.last = noneVal

instance (range : AnyFileRange) : Decidable range.IsNull :=
  inferInstanceAs (Decidable (range.beg = noneVal ∨ range.last = noneVal))

/-- `compare` finds no difference. -/
def Equal (range other : AnyFileRange) : Prop :=
  (range.IsNull ∧ other.IsNull) ∨
    ¬ range.IsNull ∧ ¬ other.IsNull ∧ range.beg = other.beg ∧ range.last = other.last

theorem equal_iff_of_isNull {range other : AnyFileRange} (h : other.IsNull) :
    range.Equal other ↔ range.IsNull := by
  simp [Equal, h]

/-- The bounds are numbers of 64 bits. -/
structure Fits (range : AnyFileRange) : Prop where
  beg_lt : range.beg < 2 ^ 64
  last_lt : range.last < 2 ^ 64

end AnyFileRange

/-- `"bytes"` -/
def bytes : Datum := [98, 121, 116, 101, 115]

/-- `"Range"` -/
def rangeKey : Datum := [82, 97, 110, 103, 101]

/-- `"Content-Range"` -/
def contentRangeKey : Datum := [67, 111, 110, 116, 101, 110, 116, 45, 82, 97, 110, 103, 101]

/-- `"Content-Length"` -/
def contentLengthKey : Datum :=
  [67, 111, 110, 116, 101, 110, 116, 45, 76, 101, 110, 103, 116, 104]

/-! ### `Range` -/

/-- The range in the value of a `Range`. -/
def parseRange (value_str : Datum) : AnyFileRange :=
  match split 61 2 value_str with
  | [unit, words] =>
    if unit ≠ bytes then .null
    else
      match split 45 2 words with
      | [first, last] =>
        if 44 ∈ last then .null
        else ⟨HttpHeader.atoi first, if last = [] then maxVal else HttpHeader.atoi last⟩
      | _ => .null
  | _ => .null

def rangeString (file_range : AnyFileRange) : Datum :=
  bytes ++ [61] ++ sizeString file_range.beg ++ [45] ++
    if file_range.last ≠ maxVal then sizeString file_range.last else []

/-- The delimiters of a `Range` are where they have to be, and there is one range. -/
def RangeShape (value : Datum) : Prop :=
  ∃ first last, value = bytes ++ 61 :: (first ++ 45 :: last) ∧ 45 ∉ first ∧ 44 ∉ last

theorem parseRange_of_shape (hfirst : 45 ∉ first) (hlast : 44 ∉ last) :
    parseRange (bytes ++ 61 :: (first ++ 45 :: last)) =
      ⟨HttpHeader.atoi first, if last = [] then maxVal else HttpHeader.atoi last⟩ := by
  have hunit : split 61 2 (bytes ++ 61 :: (first ++ 45 :: last)) =
      [bytes, first ++ 45 :: last] := Fields.split_two_eq_iff.2 ⟨rfl, by decide⟩
  have hwords : split 45 2 (first ++ 45 :: last) = [first, last] :=
    Fields.split_two_eq_iff.2 ⟨rfl, hfirst⟩
  rw [parseRange, hunit]
  simp only [hwords, ne_eq, not_true_eq_false, if_false, if_neg hlast]

theorem parseRange_of_not_shape (h : ¬ RangeShape value) : parseRange value = .null := by
  rw [parseRange]
  split
  next unit words hunit =>
    split_ifs with hbytes
    · rfl
    · rw [not_not] at hbytes
      obtain ⟨rfl, -⟩ := Fields.split_two_eq_iff.1 hunit
      split
      next first last hwords =>
        obtain ⟨rfl, hfirst⟩ := Fields.split_two_eq_iff.1 hwords
        rw [if_pos]
        by_contra hlast
        exact h ⟨first, last, by rw [hbytes], hfirst, hlast⟩
      next => rfl
  next => rfl

/-- A range which was read is null only where the value has not the shape of one. -/
theorem isNull_parseRange_iff : (parseRange value).IsNull ↔ ¬ RangeShape value := by
  constructor
  · rintro hnull ⟨first, last, rfl, hfirst, hlast⟩
    rw [parseRange_of_shape hfirst hlast] at hnull
    rcases hnull with hbeg | hend
    · exact (atoi_ne first).1 hbeg
    · dsimp only at hend
      split_ifs at hend
      · exact absurd hend (by decide)
      · exact (atoi_ne last).1 hend
  · intro h
    rw [parseRange_of_not_shape h]
    exact .inl rfl

/-! ### `Content-Range` -/

/-- The instance length, which may be left out. -/
def parseInstanceLen (ilen : Datum) : ℕ :=
  if ilen ≠ [] ∧ ilen ≠ [42] then HttpHeader.atoi ilen else noneVal

/-- The range in the value of a `Content-Range`, and the instance length. -/
def parseContentRange (value_str : Datum) : AnyFileRange × ℕ :=
  match split 32 2 value_str with
  | [unit, words] =>
    if unit ≠ bytes then (.null, noneVal)
    else
      match split 47 2 words with
      | [range, ilen] =>
        if range = [42] then (.null, parseInstanceLen ilen)
        else
          match split 45 2 range with
          | [first, last] =>
            (⟨HttpHeader.atoi first, HttpHeader.atoi last⟩, parseInstanceLen ilen)
          | _ => (.null, noneVal)
      | _ => (.null, noneVal)
  | _ => (.null, noneVal)

def contentRangeString (file_range : AnyFileRange) (instance_len : ℕ) : Datum :=
  bytes ++ [32] ++
    (if ¬ file_range.IsNull then sizeString file_range.beg ++ [45] ++ sizeString file_range.last
      else [42]) ++ [47] ++
    if instance_len ≠ noneVal then sizeString instance_len else [42]

/-- The delimiters of a `Content-Range` are where they have to be, and there is a range or an
instance length. -/
def ContentRangeShape (value : Datum) : Prop :=
  ∃ range ilen, value = bytes ++ 32 :: (range ++ 47 :: ilen) ∧ 47 ∉ range ∧
    (range = [42] ∧ ilen ≠ [] ∧ ilen ≠ [42] ∨
      ∃ first last, range = first ++ 45 :: last ∧ 45 ∉ first)

variable {range ilen : Datum}

theorem split_bytes (range ilen : Datum) : split 32 2 (bytes ++ 32 :: (range ++ 47 :: ilen)) =
    [bytes, range ++ 47 :: ilen] :=
  Fields.split_two_eq_iff.2 ⟨rfl, by decide⟩

theorem parseContentRange_star (ilen : Datum) :
    parseContentRange (bytes ++ 32 :: ([42] ++ 47 :: ilen)) = (.null, parseInstanceLen ilen) := by
  have hwords : split 47 2 ([42] ++ 47 :: ilen) = [[42], ilen] :=
    Fields.split_two_eq_iff.2 ⟨rfl, by decide⟩
  rw [parseContentRange, split_bytes]
  simp only [hwords, ne_eq, not_true_eq_false, if_false, if_true]

theorem parseContentRange_range (hrange : 47 ∉ first ++ 45 :: last) (hfirst : 45 ∉ first)
    (ilen : Datum) : parseContentRange (bytes ++ 32 :: (first ++ 45 :: last ++ 47 :: ilen)) =
      (⟨HttpHeader.atoi first, HttpHeader.atoi last⟩, parseInstanceLen ilen) := by
  have hwords : split 47 2 (first ++ 45 :: last ++ 47 :: ilen) = [first ++ 45 :: last, ilen] :=
    Fields.split_two_eq_iff.2 ⟨rfl, hrange⟩
  have hbounds : split 45 2 (first ++ 45 :: last) = [first, last] :=
    Fields.split_two_eq_iff.2 ⟨rfl, hfirst⟩
  have hstar : first ++ 45 :: last ≠ [42] := by
    intro heq
    have hmem : (45 : UInt8) ∈ first ++ 45 :: last := by simp
    rw [heq] at hmem
    exact absurd hmem (by decide)
  rw [parseContentRange, split_bytes]
  simp only [hwords, hbounds, ne_eq, not_true_eq_false, if_false, if_neg hstar]

theorem parseContentRange_of_not_shape (h : ¬ ContentRangeShape value) :
    parseContentRange value = (.null, noneVal) := by
  rw [parseContentRange]
  split
  next unit words hunit =>
    split_ifs with hbytes
    · rfl
    · rw [not_not] at hbytes
      obtain ⟨rfl, -⟩ := Fields.split_two_eq_iff.1 hunit
      subst hbytes
      split
      next range ilen hwords =>
        obtain ⟨rfl, hrange⟩ := Fields.split_two_eq_iff.1 hwords
        split_ifs with hstar
        · rw [parseInstanceLen, if_neg]
          exact fun hilen => h ⟨range, ilen, rfl, hrange, .inl ⟨hstar, hilen⟩⟩
        · split
          next first last hbounds =>
            obtain ⟨rfl, hfirst⟩ := Fields.split_two_eq_iff.1 hbounds
            exact absurd ⟨_, ilen, rfl, hrange, .inr ⟨first, last, rfl, hfirst⟩⟩ h
          next => rfl
      next => rfl
  next => rfl

/-- Nothing was read only where the value has not the shape of a range and a length. -/
theorem isNull_parseContentRange_iff :
    (parseContentRange value).1.IsNull ∧ (parseContentRange value).2 = noneVal ↔
      ¬ ContentRangeShape value := by
  constructor
  · rintro ⟨hnull, hnone⟩ ⟨range, ilen, rfl, hrange, ⟨rfl, hilen⟩ | ⟨first, last, rfl, hfirst⟩⟩
    · rw [parseContentRange_star, parseInstanceLen, if_pos hilen] at hnone
      exact (atoi_ne ilen).1 hnone
    · rw [parseContentRange_range hrange hfirst] at hnull
      rcases hnull with hbeg | hend
      · exact (atoi_ne first).1 hbeg
      · exact (atoi_ne last).1 hend
  · intro h
    rw [parseContentRange_of_not_shape h]
    exact ⟨.inl rfl, rfl⟩

/-! ### Well-formed values -/

def IsNumeral (str : Datum) : Prop := str ≠ [] ∧ ∀ c ∈ str, Bencode.isDigit c = true

/-- What a numeral says. -/
def numeral (str : Datum) : ℕ := (Bencode.readDigits 0 str).1

/-- The bounds of a range, in order. -/
def IsBounds (first last : Datum) : Prop :=
  IsNumeral first ∧ IsNumeral last ∧ numeral first ≤ numeral last

/-- The value of a `Range`: one range of bytes, maybe open. -/
def IsRangeValue (value : Datum) : Prop :=
  ∃ first last, value = bytes ++ 61 :: (first ++ 45 :: last) ∧
    (IsBounds first last ∨ IsNumeral first ∧ last = [])

/-- The value of a `Content-Range`: a range of bytes and an instance length, one of which may be
undetermined. -/
def IsContentRangeValue (value : Datum) : Prop :=
  ∃ range ilen, value = bytes ++ 32 :: (range ++ 47 :: ilen) ∧
    ((∃ first last, range = first ++ 45 :: last ∧ IsBounds first last) ∧
        (IsNumeral ilen ∨ ilen = [42]) ∨
      range = [42] ∧ IsNumeral ilen)

/-- What is asked of the first value under a key, if any. -/
def FirstValue (db : StrvarDb) (key : Datum) (P : Datum → Prop) : Prop :=
  ∀ value, (db.values key).head? = some value → P value

/-! ### Entries which are read -/

/-- What a function which reads an entry returns: what is in the first value, or a null object. -/
def readEntry {T : Type*} (db : StrvarDb) (key : Datum) (parse : Datum → T) (null : T) : T :=
  if db.containKey key then parse (db.getFirstValue key) else null

section ReadEntry

variable {T : Type*} {db : StrvarDb} {key val : Datum} {parse : Datum → T} {null : T}

theorem readEntry_of_head? (h : (db.values key).head? = some val) :
    readEntry db key parse null = parse val := by
  obtain ⟨rest, hvalues⟩ := List.head?_eq_some_iff.1 h
  have hcontain : db.containKey key = true := by
    rw [StrvarDb.containKey_iff, hvalues]
    exact List.cons_ne_nil _ _
  rw [readEntry, if_pos hcontain, StrvarDb.getFirstValue_eq, hvalues, List.headD_cons]

theorem readEntry_of_nil (h : db.values key = []) : readEntry db key parse null = null := by
  rw [readEntry, if_neg]
  rw [StrvarDb.containKey_iff, h]
  exact not_not.2 rfl

/-- What was set is read. -/
theorem readEntry_update : readEntry (db.update key val) key parse null = parse val :=
  readEntry_of_head? (by rw [StrvarDb.values_update, List.head?_cons])

end ReadEntry

end HttpHeader

open HttpHeader

/-! ### `http_reqhd_t` -/

namespace HttpReqhd

/-- `range()` -/
def range (reqhd : HttpReqhd) : AnyFileRange :=
  readEntry reqhd.header_db rangeKey parseRange .null

/-- `range(file_range)` -/
def setRange (reqhd : HttpReqhd) (file_range : AnyFileRange) : HttpReqhd :=
  if file_range.IsNull then
    match reqhd.header_db.firstKeyIdx rangeKey with
    | none => reqhd
    | some var_idx => { reqhd with header_db := reqhd.header_db.remove var_idx }
  else { reqhd with header_db := reqhd.header_db.update rangeKey (rangeString file_range) }

/-- `content_length()` -/
def contentLength (reqhd : HttpReqhd) : ℕ :=
  readEntry reqhd.header_db contentLengthKey HttpHeader.atoi noneVal

/-- `content_length(file_size)` -/
def setContentLength (reqhd : HttpReqhd) (file_size : ℕ) : HttpReqhd :=
  { reqhd with header_db := reqhd.header_db.update contentLengthKey (sizeString file_size) }

variable {range : AnyFileRange} {file_size : ℕ}

/-- A range which is not null is read back from its string exactly when its bounds are; the one
after the end of an open range is not written. -/
theorem parseRange_rangeString_iff (hnull : ¬ range.IsNull) (h : range.Fits) :
    (parseRange (rangeString range)).Equal range ↔
      Readable range.beg ∧ (range.last = maxVal ∨ Readable range.last) := by
  have hfirst : 45 ∉ sizeString range.beg := notMem_sizeString rfl (by decide) range.beg
  have hlast : 44 ∉ if range.last ≠ maxVal then sizeString range.last else [] := by
    split_ifs
    · exact notMem_sizeString rfl (by decide) range.last
    · exact List.not_mem_nil
  have hstr : rangeString range = bytes ++ 61 :: (sizeString range.beg ++ 45 ::
      if range.last ≠ maxVal then sizeString range.last else []) := by
    simp only [rangeString, List.append_assoc, List.cons_append, List.nil_append]
  have hnotnull : ¬ (parseRange (rangeString range)).IsNull := by
    rw [isNull_parseRange_iff, not_not, hstr]
    exact ⟨_, _, rfl, hfirst, hlast⟩
  have hequal : (parseRange (rangeString range)).Equal range ↔
      HttpHeader.atoi (sizeString range.beg) = range.beg ∧
        (parseRange (rangeString range)).last = range.last := by
    rw [AnyFileRange.Equal, or_iff_right fun hboth => hnull hboth.2]
    simp only [hnotnull, hnull, not_false_eq_true, true_and]
    rw [hstr, parseRange_of_shape hfirst hlast]
  rw [hequal, atoi_sizeString_eq_iff h.beg_lt, hstr, parseRange_of_shape hfirst hlast]
  refine and_congr_right fun _ => ?_
  by_cases hmax : range.last = maxVal
  · simp [hmax]
  · simp [hmax, sizeString_ne_nil, atoi_sizeString_eq_iff h.last_lt]

/-- The range is null where there is no entry too. -/
theorem isNull_range_iff (reqhd : HttpReqhd) : reqhd.range.IsNull ↔
    ∀ value, (reqhd.header_db.values rangeKey).head? = some value → ¬ RangeShape value := by
  rw [HttpReqhd.range]
  rcases hvalues : reqhd.header_db.values rangeKey with - | ⟨first, rest⟩
  · rw [readEntry_of_nil hvalues]
    exact iff_of_true (.inl rfl) nofun
  · have hhead : (reqhd.header_db.values rangeKey).head? = some first := by
      rw [hvalues, List.head?_cons]
    rw [readEntry_of_head? hhead, isNull_parseRange_iff]
    simp

/-- A null range takes the first entry away, if there is one. -/
theorem values_setRange_of_isNull (h : range.IsNull) (reqhd : HttpReqhd) :
    (reqhd.setRange range).header_db.values rangeKey =
      (reqhd.header_db.values rangeKey).tail := by
  rw [setRange, if_pos h]
  rcases StrvarDb.firstKeyIdx_cases reqhd.header_db rangeKey with
    ⟨hidx, hvalues⟩ | ⟨before, -, -, -, hidx, -⟩
  · rw [hidx, hvalues]
    rfl
  · rw [hidx]
    exact StrvarDb.values_remove hidx

/-- **Range**: what is set is read back exactly when its bounds are `int`s, the last one if there is
one; and when nothing is set, if the entry behind the one which is taken away is not read as a
range. -/
theorem range_setRange_iff (reqhd : HttpReqhd) (h : range.Fits) :
    (reqhd.setRange range).range.Equal range ↔
      range.IsNull ∧ (∀ value, (reqhd.header_db.values rangeKey)[1]? = some value →
        ¬ RangeShape value) ∨
      ¬ range.IsNull ∧ Readable range.beg ∧ (range.last = maxVal ∨ Readable range.last) := by
  by_cases hnull : range.IsNull
  · rw [AnyFileRange.equal_iff_of_isNull hnull, isNull_range_iff, values_setRange_of_isNull hnull,
      List.head?_tail]
    simp [hnull]
  · have hset : (reqhd.setRange range).range = parseRange (rangeString range) := by
      rw [setRange, if_neg hnull]
      exact readEntry_update
    rw [hset, parseRange_rangeString_iff hnull h]
    simp [hnull]

/-- **Malformed ranges**: nothing is read of them exactly when they have not the shape of a
range. -/
theorem range_malformed_iff (reqhd : HttpReqhd) :
    FirstValue reqhd.header_db rangeKey (fun value => ¬ IsRangeValue value → reqhd.range.IsNull) ↔
      FirstValue reqhd.header_db rangeKey fun value => RangeShape value → IsRangeValue value := by
  refine forall₂_congr fun value hvalue => ?_
  rw [HttpReqhd.range, readEntry_of_head? hvalue, isNull_parseRange_iff]
  tauto

end HttpReqhd

/-! ### `http_rephd_t` -/

namespace HttpRephd

/-- `content_range()`: the range and the instance length. -/
def contentRange (rephd : HttpRephd) : AnyFileRange × ℕ :=
  readEntry rephd.header_db contentRangeKey parseContentRange (.null, noneVal)

/-- `content_range(file_range, instance_len)` -/
def setContentRange (rephd : HttpRephd) (file_range : AnyFileRange) (instance_len : ℕ) :
    HttpRephd :=
  { rephd with
    header_db :=
      rephd.header_db.update contentRangeKey (contentRangeString file_range instance_len) }

/-- `content_length()` -/
def contentLength (rephd : HttpRephd) : ℕ :=
  readEntry rephd.header_db contentLengthKey HttpHeader.atoi noneVal

/-- `content_length(file_size)` -/
def setContentLength (rephd : HttpRephd) (file_size : ℕ) : HttpRephd :=
  { rephd with header_db := rephd.header_db.update contentLengthKey (sizeString file_size) }

variable {range : AnyFileRange} {instance_len file_size : ℕ}

/-- **Content-Range**: the range and the instance length are read back exactly when their numbers
are `int`s; what is undetermined is. -/
theorem contentRange_setContentRange_iff (rephd : HttpRephd) (h : range.Fits)
    (hlt : instance_len < 2 ^ 64) :
    ((rephd.setContentRange range instance_len).contentRange.1.Equal range ∧
        (rephd.setContentRange range instance_len).contentRange.2 = instance_len) ↔
      (range.IsNull ∨ Readable range.beg ∧ Readable range.last) ∧
        (instance_len = noneVal ∨ Readable instance_len) := by
  have hset : (rephd.setContentRange range instance_len).contentRange =
      parseContentRange (contentRangeString range instance_len) := readEntry_update
  have hilen : parseInstanceLen (if instance_len ≠ noneVal then sizeString instance_len else [42]) =
      instance_len ↔ instance_len = noneVal ∨ Readable instance_len := by
    by_cases hnone : instance_len = noneVal
    · simp [hnone, parseInstanceLen]
    · have hstar : sizeString instance_len ≠ [42] := by
        intro heq
        have hmem : (42 : UInt8) ∉ sizeString instance_len :=
          notMem_sizeString rfl (by decide) instance_len
        rw [heq] at hmem
        exact hmem (List.mem_cons_self ..)
      rw [if_pos hnone, parseInstanceLen, if_pos ⟨sizeString_ne_nil instance_len, hstar⟩,
        atoi_sizeString_eq_iff hlt]
      simp [hnone]
  rw [hset]
  by_cases hnull : range.IsNull
  -- a null range is printed as a star, and read back as one
  · have hstr : contentRangeString range instance_len = bytes ++ 32 :: ([42] ++ 47 ::
        if instance_len ≠ noneVal then sizeString instance_len else [42]) := by
      simp only [contentRangeString, hnull, not_true_eq_false, if_false, List.append_assoc,
        List.cons_append, List.nil_append]
    rw [hstr, parseContentRange_star, hilen, AnyFileRange.equal_iff_of_isNull hnull]
    simp [hnull, show AnyFileRange.null.IsNull from .inl rfl]
  -- its two numbers come back when `atoi` can read them
  · have hfirst : 45 ∉ sizeString range.beg := notMem_sizeString rfl (by decide) range.beg
    have hslash : 47 ∉ sizeString range.beg ++ 45 :: sizeString range.last := by
      simp [notMem_sizeString (d := 47) rfl (by decide)]
    have hstr : contentRangeString range instance_len =
        bytes ++ 32 :: (sizeString range.beg ++ 45 :: sizeString range.last ++ 47 ::
          if instance_len ≠ noneVal then sizeString instance_len else [42]) := by
      simp only [contentRangeString, hnull, not_false_eq_true, if_true, List.append_assoc,
        List.cons_append, List.nil_append]
    rw [hstr, parseContentRange_range hslash hfirst, hilen]
    refine and_congr_left fun _ => ?_
    rw [or_iff_right hnull, ← atoi_sizeString_eq_iff h.beg_lt, ← atoi_sizeString_eq_iff h.last_lt,
      AnyFileRange.Equal, or_iff_right fun hboth => hnull hboth.2]
    have hread : ¬ AnyFileRange.IsNull ⟨HttpHeader.atoi (sizeString range.beg),
        HttpHeader.atoi (sizeString range.last)⟩ := by
      rintro (hbeg | hend)
      · exact (atoi_ne _).1 hbeg
      · exact (atoi_ne _).1 hend
    simp only [hread, hnull, not_false_eq_true, true_and]

/-- **Malformed content ranges**: nothing is read of them exactly when they have not the shape of a
range and a length. -/
theorem contentRange_malformed_iff (rephd : HttpRephd) :
    FirstValue rephd.header_db contentRangeKey (fun value => ¬ IsContentRangeValue value →
        rephd.contentRange.1.IsNull ∧ rephd.contentRange.2 = noneVal) ↔
      FirstValue rephd.header_db contentRangeKey fun value =>
        ContentRangeShape value → IsContentRangeValue value := by
  refine forall₂_congr fun value hvalue => ?_
  rw [HttpRephd.contentRange, readEntry_of_head? hvalue, isNull_parseContentRange_iff]
  tauto

end HttpRephd

/-! ### `Content-Length` -/

section ContentLength

variable {db : StrvarDb} {file_size : ℕ}

/-- **Content-Length**: the size is read back exactly when it is an `int`. -/
theorem readEntry_contentLength_iff (hlt : file_size < 2 ^ 64) :
    readEntry (db.update contentLengthKey (sizeString file_size)) contentLengthKey
      HttpHeader.atoi noneVal = file_size ↔ Readable file_size := by
  rw [readEntry_update, atoi_sizeString_eq_iff hlt]

/-- **Malformed lengths**: something is read of any value. -/
theorem contentLength_malformed_iff :
    FirstValue db contentLengthKey (fun value => ¬ IsNumeral value →
        readEntry db contentLengthKey HttpHeader.atoi noneVal = noneVal) ↔
      FirstValue db contentLengthKey IsNumeral := by
  refine forall₂_congr fun value hvalue => ?_
  rw [readEntry_of_head? hvalue]
  constructor
  · intro h
    by_contra hvalue
    exact (atoi_ne value).1 (h hvalue)
  · exact fun hvalue hnot => absurd hvalue hnot

end ContentLength

namespace HttpHeader

/-- **Header codecs**: which headers are read back, which sizes and ranges are read back from their
entry, and of which malformed values nothing is read. -/
theorem headers_iff {reqhd : HttpReqhd} {u : HttpUri} (hreqhd : reqhd.IsRequest u)
    {rephd : HttpRephd} (hrephd : rephd.IsReply) {range : AnyFileRange} (hrange : range.Fits)
    {file_size : ℕ} (hsize : file_size < 2 ^ 64) (reqhd' : HttpReqhd) (rephd' : HttpRephd) :
    ((HttpReqhd.fromHttp reqhd.toHttp).Equal reqhd ↔
      reqhd.method ≠ none ∧ reqhd.version ≠ none ∧ u.path.isNull = false ∧
        (u.port < 2 ^ 31 ∨ u.port = 2 ^ 64 - 1)) ∧
    ((HttpRephd.fromHttp rephd.toHttp).Equal rephd ↔
      rephd.status_code = 0 ∨ rephd.version ≠ none ∧
        (rephd.status_code < 2 ^ 31 ∨ rephd.status_code = 2 ^ 64 - 1) ∧
          ¬ crlf <:+: rephd.reason_phrase) ∧
    ((reqhd'.setRange range).range.Equal range ↔
      range.IsNull ∧ (∀ value, (reqhd'.header_db.values rangeKey)[1]? = some value →
        ¬ RangeShape value) ∨
      ¬ range.IsNull ∧ Readable range.beg ∧ (range.last = maxVal ∨ Readable range.last)) ∧
    (((rephd'.setContentRange range file_size).contentRange.1.Equal range ∧
        (rephd'.setContentRange range file_size).contentRange.2 = file_size) ↔
      (range.IsNull ∨ Readable range.beg ∧ Readable range.last) ∧
        (file_size = noneVal ∨ Readable file_size)) ∧
    ((reqhd'.setContentLength file_size).contentLength = file_size ↔ Readable file_size) ∧
    ((rephd'.setContentLength file_size).contentLength = file_size ↔ Readable file_size) ∧
    (FirstValue reqhd'.header_db rangeKey (fun value => ¬ IsRangeValue value →
        reqhd'.range.IsNull) ↔
      FirstValue reqhd'.header_db rangeKey fun value => RangeShape value → IsRangeValue value) ∧
    (FirstValue rephd'.header_db contentRangeKey (fun value => ¬ IsContentRangeValue value →
        rephd'.contentRange.1.IsNull ∧ rephd'.contentRange.2 = noneVal) ↔
      FirstValue rephd'.header_db contentRangeKey fun value =>
        ContentRangeShape value → IsContentRangeValue value) ∧
    (FirstValue reqhd'.header_db contentLengthKey (fun value => ¬ IsNumeral value →
        reqhd'.contentLength = noneVal) ↔
      FirstValue reqhd'.header_db contentLengthKey IsNumeral) ∧
    (FirstValue rephd'.header_db contentLengthKey (fun value => ¬ IsNumeral value →
        rephd'.contentLength = noneVal) ↔
      FirstValue rephd'.header_db contentLengthKey IsNumeral) :=
  ⟨HttpReqhd.fromHttp_iff hreqhd, HttpRephd.fromHttp_iff hrephd, reqhd'.range_setRange_iff hrange,
    rephd'.contentRange_setContentRange_iff hrange hsize, readEntry_contentLength_iff hsize,
    readEntry_contentLength_iff hsize, reqhd'.range_malformed_iff,
    rephd'.contentRange_malformed_iff, contentLength_malformed_iff, contentLength_malformed_iff⟩

/-- `http://h/` -/
def rootUri : HttpUri := { HttpUri.escapedAnchor with anchor := [] }

/-- `GET / HTTP/1.1`, with `Host: h`. -/
def getReqhd : HttpReqhd where
  method := some .get
  uri := some rootUri
  version := some .v1_1
  header_db := ⟨[⟨HttpReqhd.hostKey, [104]⟩], true⟩

/-- `HTTP/1.1 200 OK`, with `Content-Length: abc`. -/
def okRephd : HttpRephd where
  version := some .v1_1
  status_code := 200
  reason_phrase := [79, 75]
  header_db := ⟨[⟨contentLengthKey, [97, 98, 99]⟩], true⟩

theorem isRequest_getReqhd : getReqhd.IsRequest rootUri where
  uri := rfl
  scheme := rfl
  anchor := rfl
  host := by decide
  entries := by
    intro item hitem
    obtain rfl := List.mem_singleton.1 hitem
    exact ⟨by decide, by decide, by decide, by simp, by simp⟩

theorem isReply_okRephd : okRephd.IsReply where
  status_lt := by decide
  entries := by
    intro item hitem
    obtain rfl := List.mem_singleton.1 hitem
    exact ⟨by decide, by decide, by decide, by simp, by simp⟩

/-- A request and a reply which are read back, and a range and a length. -/
theorem headers_iff_get : (HttpReqhd.fromHttp getReqhd.toHttp).Equal getReqhd ∧
    (HttpRephd.fromHttp okRephd.toHttp).Equal okRephd ∧
      (getReqhd.setRange ⟨0, 9⟩).range.Equal ⟨0, 9⟩ ∧
        (getReqhd.setContentLength 10).contentLength = 10 := by
  have hrange : AnyFileRange.Fits ⟨0, 9⟩ := ⟨by decide, by decide⟩
  have hsize : 10 < 2 ^ 64 := by decide
  obtain ⟨hreqhd, hrephd, hset, -, hlength, -⟩ :=
    headers_iff isRequest_getReqhd isReply_okRephd hrange hsize getReqhd okRephd
  refine ⟨hreqhd.2 ⟨by decide, by decide, by decide, .inl (by decide)⟩,
    hrephd.2 (.inr ⟨by decide, .inl (by decide), by decide⟩), ?_, hlength.2 (by decide)⟩
  exact hset.2 (.inr ⟨by decide, by decide, .inr (by decide)⟩)

/-- A size of 2 GB and a range from there on are not read back, and `abc` is read as a length of
zero. -/
theorem not_headers : (getReqhd.setContentLength (2 ^ 31)).contentLength ≠ 2 ^ 31 ∧
    ¬ (getReqhd.setRange ⟨2 ^ 31, maxVal⟩).range.Equal ⟨2 ^ 31, maxVal⟩ ∧
      ¬ IsNumeral [97, 98, 99] ∧ okRephd.contentLength = 0 := by
  have hfits : AnyFileRange.Fits ⟨2 ^ 31, maxVal⟩ := ⟨by decide, by decide⟩
  refine ⟨fun h => ?_, fun h => ?_, fun h => ?_, by decide⟩
  · have hlt : 2 ^ 31 < 2 ^ 64 := by decide
    have hread : Readable (2 ^ 31) := (readEntry_contentLength_iff hlt).1 h
    exact absurd hread (by decide)
  · rcases (getReqhd.range_setRange_iff hfits).1 h with ⟨hnull, -⟩ | ⟨-, hread, -⟩
    · exact absurd hnull (by decide)
    · exact absurd hread (by decide)
  · exact absurd (h.2 97 (List.mem_cons_self ..)) (by decide)

end HttpHeader

end Neoip
