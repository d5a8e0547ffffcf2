/-
Neoip/Base64.lean

Base 64: `base64_t`, `encode` and `decode`, with either alphabet.  They are the
functions on a buffer; the overload of `encode` on a `datum_t`, in the header of the
source, drops its alphabet and encodes with `norm_alphabet`.

The encoder fills a quantum of 3 bytes and translates it when it is full; the
decoder does the same with a chunk of 4 characters, and leaves its loop at the
first one which is not in the alphabet.  What is left in the end is filled up
with zeros.  In the decoder these are looked up in the alphabet too, where
there is none: `std::string::npos` becomes the byte 255, but no byte which is
kept is made of it.

`rfc3548` is the encoding as the rfc has it: the input is a number of 24 bits,
or of 8 or 16 with zero bits added on the right, and each 6 bits of it are a
digit.

Main results: `decode_encode`, `encode_eq_rfc3548`, `encode_decode_iff`, which
strings are encoded again, and `decode_takeWhile`.
-/
import Mathlib.Data.List.Nodup
import Neoip.GenId

namespace Neoip.Base64

/-! ### The alphabets -/

/-- The two alphabets of `base64_t`. -/
inductive Alphabet
  | norm
  | safe
deriving DecidableEq, Repr

/-- `norm_alphabet` and `safe_alphabet`. -/
def Alphabet.chars : Alphabet → Datum
  | .norm => (List.range' 65 26 ++ List.range' 97 26 ++ List.range' 48 10 ++ [43, 47]).map UInt8.ofNat
  | .safe => (List.range' 65 26 ++ List.range' 97 26 ++ List.range' 48 10 ++ [45, 95]).map UInt8.ofNat

variable (alphabet : Alphabet)

/-- `alphabet[alphabet_idx]`. -/
def charAt (alphabet_idx : UInt8) : UInt8 := alphabet.chars.getD alphabet_idx.toNat 0

/-- `alphabet.find(c)`, as a byte. -/
def find (c : UInt8) : UInt8 :=
  if c ∈ alphabet.chars then UInt8.ofNat (alphabet.chars.idxOf c) else 255

def belongToAlphabet (c : UInt8) : Bool := c ∈ alphabet.chars

def isPadding (c : UInt8) : Bool := c = 61

/-! ### `encode` -/

/-- The 6-bit groups of a quantum, which is filled up with zeros. -/
def groups (enc_quantum : Datum) : Datum :=
  let q0 := enc_quantum.getD 0 0
  let q1 := enc_quantum.getD 1 0
  let q2 := enc_quantum.getD 2 0
  [(q0 &&& 0xfc) >>> 2, ((q0 &&& 0x03) <<< 4) + ((q1 &&& 0xf0) >>> 4),
    ((q1 &&& 0x0f) <<< 2) + ((q2 &&& 0xc0) >>> 6), q2 &&& 0x3f]

/-- What comes of a quantum which is not full at the end of the data. -/
def encodeRest (enc_quantum : Datum) : Datum :=
  if enc_quantum.length = 0 then []
  else
    ((groups enc_quantum).take (enc_quantum.length + 1)).map (charAt alphabet)
      ++ if enc_quantum.length = 1 then [61, 61] else [61]

/-- The loop over the data. -/
def encodeLoop : Datum → Datum → Datum
  | enc_quantum, [] => encodeRest alphabet enc_quantum
  | enc_quantum, b :: data =>
    if (enc_quantum ++ [b]).length = 3 then
      (groups (enc_quantum ++ [b])).map (charAt alphabet) ++ encodeLoop [] data
    else encodeLoop (enc_quantum ++ [b]) data

def encode (data : Datum) : Datum := encodeLoop alphabet [] data

/-! ### `decode` -/

/-- The bytes of a chunk, which is filled up with zeros. -/
def quantum (dec_chunk : Datum) : Datum :=
  let d0 := find alphabet (dec_chunk.getD 0 0)
  let d1 := find alphabet (dec_chunk.getD 1 0)
  let d2 := find alphabet (dec_chunk.getD 2 0)
  let d3 := find alphabet (dec_chunk.getD 3 0)
  [(d0 <<< 2) + ((d1 &&& 0x30) >>> 4), ((d1 &&& 0xf) <<< 4) + ((d2 &&& 0x3c) >>> 2),
    ((d2 &&& 0x3) <<< 6) + d3]

/-- What comes of a chunk which is not full when the loop is left. -/
def decodeRest (dec_chunk : Datum) : Datum :=
  if dec_chunk.length = 0 then [] else (quantum alphabet dec_chunk).take (dec_chunk.length - 1)

/-- The loop over the string. -/
def decodeLoop : Datum → Datum → Datum
  | dec_chunk, [] => decodeRest alphabet dec_chunk
  | dec_chunk, c :: str_enc =>
    if isPadding c then decodeRest alphabet dec_chunk
    else if !belongToAlphabet alphabet c then decodeRest alphabet dec_chunk
    else if (dec_chunk ++ [c]).length = 4 then
      quantum alphabet (dec_chunk ++ [c]) ++ decodeLoop [] str_enc
    else decodeLoop (dec_chunk ++ [c]) str_enc

def decode (str_enc : Datum) : Datum := decodeLoop alphabet [] str_enc

/-! ### The encoding of the rfc -/

/-- A digit in base 64, in the alphabet. -/
def digit (n : ℕ) : UInt8 := alphabet.chars.getD n 0

/-- The last `k` digits of a number, the first one in front. -/
def digits : ℕ → ℕ → Datum
  | 0, _ => []
  | k + 1, n => digits k (n / 64) ++ [digit alphabet (n % 64)]

def rfc3548 : Datum → Datum
  | [] => []
  | [a] => digits alphabet 2 (GenId.ofBytes [a] * 2 ^ 4) ++ [61, 61]
  | [a, b] => digits alphabet 3 (GenId.ofBytes [a, b] * 2 ^ 2) ++ [61]
  | a :: b :: c :: data => digits alphabet 4 (GenId.ofBytes [a, b, c]) ++ rfc3548 data

/-- The strings which are the encoding of something: quanta of 4 characters, the last of which may
be 2 or 3 characters and padding, where the bits which are not used are zeros. -/
inductive Canonical : Datum → Prop
  | nil : Canonical []
  | pad2 {c0 c1} (h0 : c0 ∈ alphabet.chars) (h1 : c1 ∈ alphabet.chars)
      (hzero : alphabet.chars.idxOf c1 % 16 = 0) : Canonical [c0, c1, 61, 61]
  | pad1 {c0 c1 c2} (h0 : c0 ∈ alphabet.chars) (h1 : c1 ∈ alphabet.chars)
      (h2 : c2 ∈ alphabet.chars) (hzero : alphabet.chars.idxOf c2 % 4 = 0) :
      Canonical [c0, c1, c2, 61]
  | quantum {c0 c1 c2 c3 str} (h0 : c0 ∈ alphabet.chars) (h1 : c1 ∈ alphabet.chars)
      (h2 : c2 ∈ alphabet.chars) (h3 : c3 ∈ alphabet.chars) (h : Canonical str) :
      Canonical (c0 :: c1 :: c2 :: c3 :: str)

/-! ### Characters and their indices -/

section Characters

variable {alphabet} {c : UInt8} {n : ℕ}

theorem length_chars : ∀ alphabet : Alphabet, alphabet.chars.length = 64
  | .norm => rfl
  | .safe => rfl

theorem nodup_chars : ∀ alphabet : Alphabet, alphabet.chars.Nodup
  | .norm => by decide
  | .safe => by decide

theorem padding_notMem : ∀ alphabet : Alphabet, (61 : UInt8) ∉ alphabet.chars
  | .norm => by decide
  | .safe => by decide

theorem digit_mem (h : n < 64) : digit alphabet n ∈ alphabet.chars := by
  have hlt : n < alphabet.chars.length := by rwa [length_chars]
  rw [digit, List.getD_eq_getElem _ _ hlt]
  exact List.getElem_mem hlt

theorem idxOf_lt (h : c ∈ alphabet.chars) : alphabet.chars.idxOf c < 64 := by
  rw [← length_chars alphabet]
  exact List.idxOf_lt_length_of_mem h

theorem idxOf_digit (h : n < 64) : alphabet.chars.idxOf (digit alphabet n) = n := by
  have hlt : n < alphabet.chars.length := by rwa [length_chars]
  rw [digit, List.getD_eq_getElem _ _ hlt, (nodup_chars alphabet).idxOf_getElem]

theorem digit_idxOf (h : c ∈ alphabet.chars) : digit alphabet (alphabet.chars.idxOf c) = c := by
  have hlt := List.idxOf_lt_length_of_mem h
  rw [digit, List.getD_eq_getElem _ _ hlt, List.getElem_idxOf]

theorem toNat_find (h : c ∈ alphabet.chars) : (find alphabet c).toNat = alphabet.chars.idxOf c := by
  have hlt := idxOf_lt h
  rw [find, if_pos h, UInt8.toNat_ofNat']
  exact Nat.mod_eq_of_lt (by omega)

end Characters

/-! ### The groups of bits -/

section Groups

/-- A mask and a shift to the right: the mask has `width` bits in front of those which go. -/
theorem toNat_and_shiftRight (width : ℕ) (q mask s : UInt8)
    (hmask : mask.toNat / 2 ^ (s.toNat % 8) = 2 ^ width - 1) :
    ((q &&& mask) >>> s).toNat = q.toNat / 2 ^ (s.toNat % 8) % 2 ^ width := by
  rw [UInt8.toNat_shiftRight, UInt8.toNat_and, Nat.shiftRight_and_distrib,
    Nat.shiftRight_eq_div_pow, Nat.shiftRight_eq_div_pow, hmask, Nat.and_two_pow_sub_one_eq_mod]

/-- A mask and a shift to the left: nothing goes when there is room for the bits of the mask. -/
theorem toNat_and_shiftLeft (width : ℕ) (q mask s : UInt8) (hmask : mask.toNat = 2 ^ width - 1)
    (hroom : width + s.toNat % 8 ≤ 8) :
    ((q &&& mask) <<< s).toNat = q.toNat % 2 ^ width * 2 ^ (s.toNat % 8) := by
  have hlt : q.toNat % 2 ^ width * 2 ^ (s.toNat % 8) < 2 ^ 8 :=
    calc q.toNat % 2 ^ width * 2 ^ (s.toNat % 8)
        < 2 ^ width * 2 ^ (s.toNat % 8) :=
          Nat.mul_lt_mul_of_pos_right (Nat.mod_lt _ (Nat.two_pow_pos width)) (Nat.two_pow_pos _)
      _ = 2 ^ (width + s.toNat % 8) := (Nat.pow_add ..).symm
      _ ≤ 2 ^ 8 := Nat.pow_le_pow_right Nat.two_pos hroom
  rw [UInt8.toNat_shiftLeft, UInt8.toNat_and, hmask, Nat.and_two_pow_sub_one_eq_mod,
    Nat.shiftLeft_eq, Nat.mod_eq_of_lt hlt]

variable (q d : UInt8)

theorem toNat_high6 : ((q &&& 0xfc) >>> 2).toNat = q.toNat / 4 := by
  have hlt : q.toNat / 4 < 64 := Nat.div_lt_of_lt_mul q.toNat_lt
  exact (toNat_and_shiftRight 6 q 0xfc 2 rfl).trans (Nat.mod_eq_of_lt hlt)

theorem toNat_low2 : ((q &&& 0x03) <<< 4).toNat = q.toNat % 4 * 16 :=
  toNat_and_shiftLeft 2 q 0x03 4 rfl (by decide)

theorem toNat_high4 : ((q &&& 0xf0) >>> 4).toNat = q.toNat / 16 := by
  have hlt : q.toNat / 16 < 16 := Nat.div_lt_of_lt_mul q.toNat_lt
  exact (toNat_and_shiftRight 4 q 0xf0 4 rfl).trans (Nat.mod_eq_of_lt hlt)

theorem toNat_low4 : ((q &&& 0x0f) <<< 2).toNat = q.toNat % 16 * 4 :=
  toNat_and_shiftLeft 4 q 0x0f 2 rfl (by decide)

theorem toNat_high2 : ((q &&& 0xc0) >>> 6).toNat = q.toNat / 64 := by
  have hlt : q.toNat / 64 < 4 := Nat.div_lt_of_lt_mul q.toNat_lt
  exact (toNat_and_shiftRight 2 q 0xc0 6 rfl).trans (Nat.mod_eq_of_lt hlt)

theorem toNat_low6 : (q &&& 0x3f).toNat = q.toNat % 64 := by
  rw [UInt8.toNat_and]
  exact Nat.and_two_pow_sub_one_eq_mod q.toNat 6

theorem toNat_shift2 : (d <<< 2).toNat = d.toNat * 4 % 256 := by
  rw [UInt8.toNat_shiftLeft, Nat.shiftLeft_eq]
  rfl

theorem toNat_mid2 : ((d &&& 0x30) >>> 4).toNat = d.toNat / 16 % 4 :=
  toNat_and_shiftRight 2 d 0x30 4 rfl

theorem toNat_shift4 : ((d &&& 0xf) <<< 4).toNat = d.toNat % 16 * 16 :=
  toNat_and_shiftLeft 4 d 0xf 4 rfl (by decide)

theorem toNat_mid4 : ((d &&& 0x3c) >>> 2).toNat = d.toNat / 4 % 16 :=
  toNat_and_shiftRight 4 d 0x3c 2 rfl

theorem toNat_shift6 : ((d &&& 0x3) <<< 6).toNat = d.toNat % 4 * 64 :=
  toNat_and_shiftLeft 2 d 0x3 6 rfl (by decide)

end Groups

section Codec

variable {alphabet} {a b c c0 c1 c2 c3 : UInt8} {data dec_chunk str : Datum}

/-- **The characters of a quantum.** -/
theorem map_charAt_groups (a b c : UInt8) : (groups [a, b, c]).map (charAt alphabet)
    = [a.toNat / 4, a.toNat % 4 * 16 + b.toNat / 16, b.toNat % 16 * 4 + c.toNat / 64,
        c.toNat % 64].map (digit alphabet) := by
  have ha := a.toNat_lt
  have hb := b.toNat_lt
  have hc := c.toNat_lt
  have h1 : (((a &&& 0x03) <<< 4) + ((b &&& 0xf0) >>> 4)).toNat
      = a.toNat % 4 * 16 + b.toNat / 16 := by
    rw [UInt8.toNat_add, toNat_low2, toNat_high4]
    exact Nat.mod_eq_of_lt (by omega)
  have h2 : (((b &&& 0x0f) <<< 2) + ((c &&& 0xc0) >>> 6)).toNat
      = b.toNat % 16 * 4 + c.toNat / 64 := by
    rw [UInt8.toNat_add, toNat_low4, toNat_high2]
    exact Nat.mod_eq_of_lt (by omega)
  show [digit alphabet ((a &&& 0xfc) >>> 2).toNat,
    digit alphabet (((a &&& 0x03) <<< 4) + ((b &&& 0xf0) >>> 4)).toNat,
    digit alphabet (((b &&& 0x0f) <<< 2) + ((c &&& 0xc0) >>> 6)).toNat,
    digit alphabet (c &&& 0x3f).toNat] = _
  rw [h1, h2, toNat_high6, toNat_low6]
  rfl

/-- **The bytes of a chunk**, from the indices of its characters. -/
theorem quantum_eq (dec_chunk : Datum) : quantum alphabet dec_chunk
    = [(find alphabet (dec_chunk.getD 0 0)).toNat * 4
          + (find alphabet (dec_chunk.getD 1 0)).toNat / 16 % 4,
        (find alphabet (dec_chunk.getD 1 0)).toNat % 16 * 16
          + (find alphabet (dec_chunk.getD 2 0)).toNat / 4 % 16,
        (find alphabet (dec_chunk.getD 2 0)).toNat % 4 * 64
          + (find alphabet (dec_chunk.getD 3 0)).toNat].map UInt8.ofNat := by
  rw [quantum]
  refine congrArg₂ _ ?_ (congrArg₂ _ ?_ (congrArg₂ _ ?_ rfl))
  · apply UInt8.toNat_inj.1
    rw [UInt8.toNat_add, toNat_shift2, toNat_mid2, UInt8.toNat_ofNat']
    omega
  · apply UInt8.toNat_inj.1
    rw [UInt8.toNat_add, toNat_shift4, toNat_mid4, UInt8.toNat_ofNat']
  · apply UInt8.toNat_inj.1
    rw [UInt8.toNat_add, toNat_shift6, UInt8.toNat_ofNat']

/-! ### The loops -/

theorem encode_quantum (a b c : UInt8) (data : Datum) : encode alphabet (a :: b :: c :: data)
    = [a.toNat / 4, a.toNat % 4 * 16 + b.toNat / 16, b.toNat % 16 * 4 + c.toNat / 64,
        c.toNat % 64].map (digit alphabet) ++ encode alphabet data := by
  rw [← map_charAt_groups]
  rfl

theorem encode_one (a : UInt8) : encode alphabet [a]
    = [a.toNat / 4, a.toNat % 4 * 16].map (digit alphabet) ++ [61, 61] := by
  have hgroups : (groups [a]).map (charAt alphabet) = _ := map_charAt_groups a 0 0
  show ((groups [a]).take 2).map (charAt alphabet) ++ [61, 61] = _
  rw [List.map_take, hgroups]
  rfl

theorem encode_two (a b : UInt8) : encode alphabet [a, b]
    = [a.toNat / 4, a.toNat % 4 * 16 + b.toNat / 16, b.toNat % 16 * 4].map (digit alphabet)
      ++ [61] := by
  have hgroups : (groups [a, b]).map (charAt alphabet) = _ := map_charAt_groups a b 0
  show ((groups [a, b]).take 3).map (charAt alphabet) ++ [61] = _
  rw [List.map_take, hgroups]
  rfl

theorem not_isPadding (h : c ∈ alphabet.chars) : isPadding c = false := by
  rw [isPadding, decide_eq_false_iff_not]
  rintro rfl
  exact padding_notMem alphabet h

theorem decodeLoop_mem (h : c ∈ alphabet.chars) : decodeLoop alphabet dec_chunk (c :: str)
    = if (dec_chunk ++ [c]).length = 4 then
        quantum alphabet (dec_chunk ++ [c]) ++ decodeLoop alphabet [] str
      else decodeLoop alphabet (dec_chunk ++ [c]) str := by
  have hbelong : belongToAlphabet alphabet c = true := decide_eq_true h
  rw [decodeLoop, not_isPadding h, hbelong]
  rfl

theorem decodeLoop_notMem (h : c ∉ alphabet.chars) : decodeLoop alphabet dec_chunk (c :: str)
    = decodeRest alphabet dec_chunk := by
  have hbelong : belongToAlphabet alphabet c = false := decide_eq_false h
  rw [decodeLoop, hbelong]
  by_cases hpadding : isPadding c = true
  · rw [if_pos hpadding]
  · rw [if_neg hpadding]
    rfl

theorem decode_quantum (h0 : c0 ∈ alphabet.chars) (h1 : c1 ∈ alphabet.chars)
    (h2 : c2 ∈ alphabet.chars) (h3 : c3 ∈ alphabet.chars) (str : Datum) :
    decode alphabet (c0 :: c1 :: c2 :: c3 :: str)
      = quantum alphabet [c0, c1, c2, c3] ++ decode alphabet str := by
  rw [decode, decodeLoop_mem h0, if_neg (by simp), decodeLoop_mem h1, if_neg (by simp),
    decodeLoop_mem h2, if_neg (by simp), decodeLoop_mem h3, if_pos (by simp)]
  rfl

theorem decode_two (h0 : c0 ∈ alphabet.chars) (h1 : c1 ∈ alphabet.chars) :
    decode alphabet [c0, c1, 61, 61] = (quantum alphabet [c0, c1]).take 1 := by
  rw [decode, decodeLoop_mem h0, if_neg (by simp), decodeLoop_mem h1, if_neg (by simp),
    decodeLoop_notMem (padding_notMem alphabet)]
  rfl

theorem decode_three (h0 : c0 ∈ alphabet.chars) (h1 : c1 ∈ alphabet.chars)
    (h2 : c2 ∈ alphabet.chars) :
    decode alphabet [c0, c1, c2, 61] = (quantum alphabet [c0, c1, c2]).take 2 := by
  rw [decode, decodeLoop_mem h0, if_neg (by simp), decodeLoop_mem h1, if_neg (by simp),
    decodeLoop_mem h2, if_neg (by simp), decodeLoop_notMem (padding_notMem alphabet)]
  rfl

/-! ### Encoding and decoding -/

/-- The index of a digit is the digit. -/
theorem toNat_find_digit {n : ℕ} (h : n < 64) : (find alphabet (digit alphabet n)).toNat = n := by
  rw [toNat_find (digit_mem h), idxOf_digit h]

/-- The last quantum of one byte, or of two, or a whole one. -/
theorem data_cases (motive : Datum → Prop) (nil : motive []) (one : ∀ a, motive [a])
    (two : ∀ a b, motive [a, b])
    (quantum : ∀ a b c data, motive data → motive (a :: b :: c :: data)) (data : Datum) :
    motive data := by
  induction data using rfc3548.induct with
  | case1 => exact nil
  | case2 a => exact one a
  | case3 a b => exact two a b
  | case4 a b c data ih => exact quantum a b c data ih

theorem digits_eq (alphabet : Alphabet) (n : ℕ) :
    digits alphabet 2 n = [n / 64 % 64, n % 64].map (digit alphabet)
      ∧ digits alphabet 3 n = [n / 64 / 64 % 64, n / 64 % 64, n % 64].map (digit alphabet)
      ∧ digits alphabet 4 n = [n / 64 / 64 / 64 % 64, n / 64 / 64 % 64, n / 64 % 64, n % 64].map
        (digit alphabet) :=
  ⟨rfl, rfl, rfl⟩

/-- **The encoding is the one of the rfc.** -/
theorem encode_eq_rfc3548 (alphabet : Alphabet) (data : Datum) :
    encode alphabet data = rfc3548 alphabet data := by
  induction data using data_cases with
  | nil => rfl
  | one a =>
    have ha := a.toNat_lt
    have hn : GenId.ofBytes [a] = 0 * 256 + a.toNat := rfl
    have h0 : a.toNat / 4 = (0 * 256 + a.toNat) * 2 ^ 4 / 64 % 64 := by omega
    have h1 : a.toNat % 4 * 16 = (0 * 256 + a.toNat) * 2 ^ 4 % 64 := by omega
    rw [encode_one, rfc3548, (digits_eq alphabet _).1, hn, h0, h1]
  | two a b =>
    have ha := a.toNat_lt
    have hb := b.toNat_lt
    have hn : GenId.ofBytes [a, b] = (0 * 256 + a.toNat) * 256 + b.toNat := rfl
    have h0 : a.toNat / 4 = ((0 * 256 + a.toNat) * 256 + b.toNat) * 2 ^ 2 / 64 / 64 % 64 := by omega
    have h1 : a.toNat % 4 * 16 + b.toNat / 16
        = ((0 * 256 + a.toNat) * 256 + b.toNat) * 2 ^ 2 / 64 % 64 := by omega
    have h2 : b.toNat % 16 * 4 = ((0 * 256 + a.toNat) * 256 + b.toNat) * 2 ^ 2 % 64 := by omega
    rw [encode_two, rfc3548, (digits_eq alphabet _).2.1, hn, h0, h1, h2]
  | quantum a b c data ih =>
    have ha := a.toNat_lt
    have hb := b.toNat_lt
    have hc := c.toNat_lt
    have hn : GenId.ofBytes [a, b, c] = ((0 * 256 + a.toNat) * 256 + b.toNat) * 256 + c.toNat := rfl
    have h0 : a.toNat / 4
        = (((0 * 256 + a.toNat) * 256 + b.toNat) * 256 + c.toNat) / 64 / 64 / 64 % 64 := by omega
    have h1 : a.toNat % 4 * 16 + b.toNat / 16
        = (((0 * 256 + a.toNat) * 256 + b.toNat) * 256 + c.toNat) / 64 / 64 % 64 := by omega
    have h2 : b.toNat % 16 * 4 + c.toNat / 64
        = (((0 * 256 + a.toNat) * 256 + b.toNat) * 256 + c.toNat) / 64 % 64 := by omega
    have h3 : c.toNat % 64
        = (((0 * 256 + a.toNat) * 256 + b.toNat) * 256 + c.toNat) % 64 := by omega
    rw [encode_quantum, rfc3548, (digits_eq alphabet _).2.2, hn, ih, h0, h1, h2, h3]

/-- **The bytes are those whose groups the digits are.** -/
theorem quantum_digits (a b c : UInt8) : quantum alphabet
    ([a.toNat / 4, a.toNat % 4 * 16 + b.toNat / 16, b.toNat % 16 * 4 + c.toNat / 64,
      c.toNat % 64].map (digit alphabet)) = [a, b, c] := by
  have ha := a.toNat_lt
  have hb := b.toNat_lt
  have hc := c.toNat_lt
  have h0 : a.toNat / 4 < 64 := by omega
  have h1 : a.toNat % 4 * 16 + b.toNat / 16 < 64 := by omega
  have h2 : b.toNat % 16 * 4 + c.toNat / 64 < 64 := by omega
  have h3 : c.toNat % 64 < 64 := by omega
  have hbyte0 : a.toNat / 4 * 4 + (a.toNat % 4 * 16 + b.toNat / 16) / 16 % 4 = a.toNat := by omega
  have hbyte1 : (a.toNat % 4 * 16 + b.toNat / 16) % 16 * 16
      + (b.toNat % 16 * 4 + c.toNat / 64) / 4 % 16 = b.toNat := by omega
  have hbyte2 : (b.toNat % 16 * 4 + c.toNat / 64) % 4 * 64 + c.toNat % 64 = c.toNat := by omega
  rw [quantum_eq]
  simp only [List.map_cons, List.map_nil, List.getD_cons_zero, List.getD_cons_succ,
    toNat_find_digit h0, toNat_find_digit h1, toNat_find_digit h2, toNat_find_digit h3, hbyte0,
    hbyte1, hbyte2, UInt8.ofNat_toNat]

/-- **What is encoded is decoded.** -/
theorem decode_encode (alphabet : Alphabet) (data : Datum) :
    decode alphabet (encode alphabet data) = data := by
  induction data using data_cases with
  | nil => rfl
  | one a =>
    have ha := a.toNat_lt
    -- the byte which is kept is the one of the quantum with zeros behind it
    have hbytes : quantum alphabet _ = [a, 0, 0] := quantum_digits a 0 0
    rw [encode_one]
    refine (decode_two (digit_mem (by omega)) (digit_mem (by omega))).trans ?_
    exact congrArg (List.take 1) hbytes
  | two a b =>
    have ha := a.toNat_lt
    have hb := b.toNat_lt
    have hbytes : quantum alphabet _ = [a, b, 0] := quantum_digits a b 0
    rw [encode_two]
    refine (decode_three (digit_mem (by omega)) (digit_mem (by omega))
      (digit_mem (by omega))).trans ?_
    exact congrArg (List.take 2) hbytes
  | quantum a b c data ih =>
    have ha := a.toNat_lt
    have hb := b.toNat_lt
    have hc := c.toNat_lt
    rw [encode_quantum]
    refine (decode_quantum (digit_mem (by omega)) (digit_mem (by omega)) (digit_mem (by omega))
      (digit_mem (by omega)) (encode alphabet data)).trans ?_
    rw [ih]
    exact congrArg (· ++ data) (quantum_digits a b c)

/-! ### Canonical strings -/

/-- The indices of the characters of a chunk. -/
theorem quantum_mem (h0 : c0 ∈ alphabet.chars) (h1 : c1 ∈ alphabet.chars)
    (h2 : c2 ∈ alphabet.chars) (h3 : c3 ∈ alphabet.chars) :
    ∃ a b c : UInt8, quantum alphabet [c0, c1, c2, c3] = [a, b, c]
      ∧ a.toNat / 4 = alphabet.chars.idxOf c0
      ∧ a.toNat % 4 * 16 + b.toNat / 16 = alphabet.chars.idxOf c1
      ∧ b.toNat % 16 * 4 + c.toNat / 64 = alphabet.chars.idxOf c2
      ∧ c.toNat % 64 = alphabet.chars.idxOf c3 := by
  have hn0 := idxOf_lt h0
  have hn1 := idxOf_lt h1
  have hn2 := idxOf_lt h2
  have hn3 := idxOf_lt h3
  rw [quantum_eq]
  simp only [List.getD_cons_zero, List.getD_cons_succ, toNat_find h0, toNat_find h1, toNat_find h2,
    toNat_find h3]
  refine ⟨_, _, _, rfl, ?_, ?_, ?_, ?_⟩
  · rw [UInt8.toNat_ofNat']
    omega
  · rw [UInt8.toNat_ofNat', UInt8.toNat_ofNat']
    omega
  · rw [UInt8.toNat_ofNat', UInt8.toNat_ofNat']
    omega
  · rw [UInt8.toNat_ofNat']
    omega

theorem canonical_encode (data : Datum) : Canonical alphabet (encode alphabet data) := by
  induction data using data_cases with
  | nil => exact .nil
  | one a =>
    have ha := a.toNat_lt
    have h1 : a.toNat % 4 * 16 < 64 := by omega
    rw [encode_one]
    refine .pad2 (digit_mem (by omega)) (digit_mem h1) ?_
    rw [idxOf_digit h1]
    omega
  | two a b =>
    have ha := a.toNat_lt
    have hb := b.toNat_lt
    have h2 : b.toNat % 16 * 4 < 64 := by omega
    rw [encode_two]
    refine .pad1 (digit_mem (by omega)) (digit_mem (by omega)) (digit_mem h2) ?_
    rw [idxOf_digit h2]
    omega
  | quantum a b c data ih =>
    have ha := a.toNat_lt
    have hb := b.toNat_lt
    have hc := c.toNat_lt
    rw [encode_quantum]
    exact .quantum (digit_mem (by omega)) (digit_mem (by omega)) (digit_mem (by omega))
      (digit_mem (by omega)) ih

/-- A canonical string has characters of the alphabet, and padding. -/
theorem Canonical.mem (h : Canonical alphabet str) (hc : c ∈ str) : c ∈ alphabet.chars ∨ c = 61 := by
  induction h with
  | nil => nomatch hc
  | pad2 h0 h1 hzero =>
    simp only [List.mem_cons, List.not_mem_nil, or_false] at hc
    rcases hc with rfl | rfl | rfl | rfl
    · exact .inl h0
    · exact .inl h1
    · exact .inr rfl
    · exact .inr rfl
  | pad1 h0 h1 h2 hzero =>
    simp only [List.mem_cons, List.not_mem_nil, or_false] at hc
    rcases hc with rfl | rfl | rfl | rfl
    · exact .inl h0
    · exact .inl h1
    · exact .inl h2
    · exact .inr rfl
  | quantum h0 h1 h2 h3 h ih =>
    simp only [List.mem_cons] at hc
    rcases hc with rfl | rfl | rfl | rfl | hc
    · exact .inl h0
    · exact .inl h1
    · exact .inl h2
    · exact .inl h3
    · exact ih hc

theorem encode_decode (h : Canonical alphabet str) : encode alphabet (decode alphabet str) = str := by
  induction h with
  | nil => rfl
  | @pad2 c0 c1 h0 h1 hzero =>
    -- the byte which is kept does not depend on the last two characters
    obtain ⟨a, b, c, heq, hg0, hg1, -, -⟩ := quantum_mem h0 h1 h0 h0
    have hkept : (quantum alphabet [c0, c1]).take 1 = (quantum alphabet [c0, c1, c0, c0]).take 1 := rfl
    have hlast : a.toNat % 4 * 16 = alphabet.chars.idxOf c1 := by
      have hb := b.toNat_lt
      omega
    rw [decode_two h0 h1, hkept, heq]
    show encode alphabet [a] = _
    rw [encode_one, hg0, hlast, List.map_cons, List.map_cons, digit_idxOf h0, digit_idxOf h1]
    rfl
  | @pad1 c0 c1 c2 h0 h1 h2 hzero =>
    obtain ⟨a, b, c, heq, hg0, hg1, hg2, -⟩ := quantum_mem h0 h1 h2 h0
    have hkept : (quantum alphabet [c0, c1, c2]).take 2 = (quantum alphabet [c0, c1, c2, c0]).take 2 :=
      rfl
    have hlast : b.toNat % 16 * 4 = alphabet.chars.idxOf c2 := by
      have hc := c.toNat_lt
      omega
    rw [decode_three h0 h1 h2, hkept, heq]
    show encode alphabet [a, b] = _
    rw [encode_two, hg0, hg1, hlast, List.map_cons, List.map_cons, List.map_cons, digit_idxOf h0,
      digit_idxOf h1, digit_idxOf h2]
    rfl
  | @quantum c0 c1 c2 c3 str h0 h1 h2 h3 h ih =>
    obtain ⟨a, b, c, heq, hg0, hg1, hg2, hg3⟩ := quantum_mem h0 h1 h2 h3
    rw [decode_quantum h0 h1 h2 h3, heq]
    show encode alphabet (a :: b :: c :: decode alphabet str) = _
    rw [encode_quantum, hg0, hg1, hg2, hg3, ih]
    simp only [List.map_cons, List.map_nil, digit_idxOf h0, digit_idxOf h1, digit_idxOf h2,
      digit_idxOf h3, List.cons_append, List.nil_append]

/-- **The strings which are encoded again** are the canonical ones. -/
theorem encode_decode_iff (alphabet : Alphabet) (str : Datum) :
    encode alphabet (decode alphabet str) = str ↔ Canonical alphabet str := by
  constructor
  · intro h
    rw [← h]
    exact canonical_encode _
  · exact encode_decode

/-! ### What is behind the alphabet -/

theorem decodeLoop_takeWhile (dec_chunk str : Datum) : decodeLoop alphabet dec_chunk str
    = decodeLoop alphabet dec_chunk (str.takeWhile (belongToAlphabet alphabet)) := by
  induction str generalizing dec_chunk with
  | nil => rfl
  | cons c str ih =>
    by_cases h : c ∈ alphabet.chars
    · have hbelong : belongToAlphabet alphabet c = true := decide_eq_true h
      rw [List.takeWhile_cons_of_pos hbelong, decodeLoop_mem h, decodeLoop_mem h]
      split_ifs
      · rw [ih]
      · exact ih _
    · have hstop : ¬ belongToAlphabet alphabet c = true := fun hbelong => h (of_decide_eq_true hbelong)
      rw [List.takeWhile_cons_of_neg hstop, decodeLoop_notMem h]
      rfl

/-- **Decoding** looks at the characters in front of the first one which is not in the alphabet. -/
theorem decode_takeWhile (alphabet : Alphabet) (str : Datum) :
    decode alphabet str = decode alphabet (str.takeWhile (belongToAlphabet alphabet)) :=
  decodeLoop_takeWhile [] str

end Codec

/-- **The codec.** -/
theorem base64_codec (alphabet : Alphabet) :
    (∀ data, decode alphabet (encode alphabet data) = data)
      ∧ (∀ data, encode alphabet data = rfc3548 alphabet data)
      ∧ (∀ data, ∀ c ∈ encode alphabet data, c ∈ alphabet.chars ∨ c = 61)
      ∧ (∀ str, encode alphabet (decode alphabet str) = str ↔ Canonical alphabet str)
      ∧ ∀ str, decode alphabet str = decode alphabet (str.takeWhile (belongToAlphabet alphabet)) :=
  ⟨decode_encode alphabet, encode_eq_rfc3548 alphabet,
    fun data _ => (canonical_encode data).mem, encode_decode_iff alphabet, decode_takeWhile alphabet⟩

end Neoip.Base64
