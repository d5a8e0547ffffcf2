/-
Neoip/BitfieldCodec.lean

The byte forms of a `bitfield_t`: `to_datum` and `from_datum`, the bittorrent
form of `bt_pieceavail_t`, and the serialization.

The three writers set the bits one by one in bytes which are zero, the readers
test them one by one; `setBits` and `testBits` are these loops, and they compute
`toDatum` and `bitsOfDatum`.

All the readers make a bitfield of the number of bits they are given before they
look at a byte.  The constructor is `throw()`, so a number of bits which the
`std::vector<bool>` does not take ends the program: this is `none`, as is an
assertion which fails.  An exception is an `Except.error`.  What a vector takes,
and whether the assertions are compiled, is in `Platform`.

Main results: `roundTrips`, `zeroPadded`, `sound_iff`.
-/
import Mathlib.Data.Nat.Bitwise
import Neoip.Wire

namespace Neoip

namespace SizeT

/-- The width of a `size_t`. -/
def bits : SizeT → ℕ
  | .uint32 => 32
  | .uint64 => 64

/-- `serial >> size_t`. -/
def read : SizeT → Datum → Option (ℕ × Datum)
  | .uint32, word => readUint32 word
  | .uint64, word =>
    (readUint32 word).bind fun high =>
      (readUint32 high.2).map fun low => (high.1 * 2 ^ 32 + low.1, low.2)

/-- The exception of `serial >> size_t`. -/
def tooShort : SizeT → String
  | .uint32 => "uint32_t Payload Too Short"
  | .uint64 => "uint64_t Payload Too Short"

theorem read_write {size_t : SizeT} {n : ℕ} (hn : n < 2 ^ size_t.bits) (rest : Datum) :
    size_t.read (size_t.write n ++ rest) = some (n, rest) := by
  cases size_t with
  | uint32 => exact readUint32_writeUint32 hn rest
  | uint64 =>
    have hhigh : n / 2 ^ 32 < 2 ^ 32 := by
      have hn : n < 2 ^ 64 := hn
      omega
    have hlow : writeUint32 n = writeUint32 (n % 2 ^ 32) := by
      simp only [writeUint32, List.cons.injEq, and_true, ← UInt8.toNat_inj, UInt8.toNat_ofNat']
      omega
    rw [read, write, List.append_assoc, readUint32_writeUint32 hhigh, Option.bind_some, hlow,
      readUint32_writeUint32 (Nat.mod_lt _ (Nat.two_pow_pos 32)), Option.map_some,
      Nat.div_add_mod']

end SizeT

/-- `std::vector<bool>::max_size()`. -/
def vectorBoolMaxSize (size_t : SizeT) : ℕ := 2 ^ (size_t.bits - 1) - size_t.bits

/-- What depends on the platform and on the build. -/
structure Platform where
  size_t : SizeT
  /-- The assertions are compiled, `NO_DBG_ASSERT` is not defined. -/
  dbg_assert : Bool
  /-- The bits which a `std::vector<bool>` may have; `max_size()` when there is memory for it. -/
  capacity : ℕ
  capacity_le : capacity ≤ vectorBoolMaxSize size_t

namespace Platform

/-- The bitfields which there are. -/
def Held (p : Platform) := { bf : Bitfield // bf.length ≤ p.capacity }

variable {p : Platform}

theorem Held.length_lt (bf : p.Held) : bf.1.length < 2 ^ p.size_t.bits := by
  have hle := bf.2.trans p.capacity_le
  have hpow : 2 ^ (p.size_t.bits - 1) < 2 ^ p.size_t.bits := by
    refine Nat.pow_lt_pow_right (by decide) ?_
    cases p.size_t <;> decide
  exact (hle.trans (Nat.sub_le _ _)).trans_lt hpow

end Platform

namespace Bitfield

/-! ### The loops -/

/-- `p[i/8] |= 0x80 >> (i%8)` for the bits which are set. -/
def setBits (bf : Bitfield) (p : Datum) : Datum :=
  (List.range bf.length).foldl
    (fun p i => if bf.get i then p.modify (i / 8) (· ||| 0x80 >>> UInt8.ofNat (i % 8)) else p) p

/-- `if( p[i/8] & (0x80 >> (i%8)) ) bitfield.set(i)` for the `nb_bit` first ones. -/
def testBits (p : Datum) (nb_bit : ℕ) (bf : Bitfield) : Bitfield :=
  (List.range nb_bit).foldl
    (fun bf i => if testByte (p.getD (i / 8) 0) (i % 8) then bf.set i else bf) bf

variable {bf : Bitfield} {p : Datum} {i j n : ℕ}

theorem toNat_mask (hj : j < 8) : (0x80 >>> UInt8.ofNat j : UInt8).toNat = 2 ^ (7 - j) := by
  interval_cases j <;> rfl

/-- The bits of a byte, from the highest one. -/
theorem testByte_eq (b : UInt8) (hj : j < 8) : testByte b j = b.toNat.testBit (7 - j) := by
  have hand : (b &&& 0x80 >>> UInt8.ofNat j).toNat =
      (b.toNat.testBit (7 - j)).toNat * 2 ^ (7 - j) := by
    rw [UInt8.toNat_and, toNat_mask hj, Nat.and_two_pow]
  rw [testByte, bne, Bool.eq_iff_iff, Bool.not_eq_true', beq_eq_false_iff_ne, ne_eq,
    ← UInt8.toNat_inj, hand, UInt8.toNat_zero]
  cases b.toNat.testBit (7 - j)
  · simp
  · simp

theorem testByte_or (b : UInt8) (hi : i < 8) (hj : j < 8) :
    testByte (b ||| 0x80 >>> UInt8.ofNat j) i = (testByte b i || decide (i = j)) := by
  rw [testByte_eq _ hi, testByte_eq _ hi, UInt8.toNat_or, toNat_mask hj, Nat.testBit_or,
    Nat.testBit_two_pow]
  congr 1
  rw [decide_eq_decide]
  omega

/-- Two bytes with the same bits are equal. -/
theorem ext_testByte {a b : UInt8} (h : ∀ i < 8, testByte a i = testByte b i) : a = b := by
  rw [← UInt8.toNat_inj]
  apply Nat.eq_of_testBit_eq
  intro k
  by_cases hk : k < 8
  · have hbit := h (7 - k) (by omega)
    rw [testByte_eq _ (by omega), testByte_eq _ (by omega), Nat.sub_sub_self (by omega)] at hbit
    exact hbit
  · have hpow : 2 ^ 8 ≤ 2 ^ k := Nat.pow_le_pow_right (by decide) (not_lt.1 hk)
    rw [Nat.testBit_eq_false_of_lt (a.toNat_lt.trans_le hpow),
      Nat.testBit_eq_false_of_lt (b.toNat_lt.trans_le hpow)]

/-- The bits after the first `n` turns of the loop of the writers. -/
theorem testByte_setBits (bf : Bitfield) (p : Datum) (n : ℕ) :
    let q := (List.range n).foldl
      (fun p i => if bf.get i then p.modify (i / 8) (· ||| 0x80 >>> UInt8.ofNat (i % 8)) else p) p
    q.length = p.length ∧ ∀ k < p.length, ∀ i < 8,
      testByte (q.getD k 0) i =
        (testByte (p.getD k 0) i || (decide (8 * k + i < n) && bf.get (8 * k + i))) := by
  induction n with
  | zero =>
    refine ⟨rfl, fun k _ i _ => ?_⟩
    rw [decide_eq_false (Nat.not_lt_zero _), Bool.false_and, Bool.or_false]
    rfl
  | succ n ih =>
    obtain ⟨hlen, hbits⟩ := ih
    dsimp only at hlen hbits ⊢
    rw [List.range_succ, List.foldl_append, List.foldl_cons, List.foldl_nil]
    generalize (List.range n).foldl _ p = q at hlen hbits ⊢
    split_ifs with hget
    · refine ⟨by rw [List.length_modify, hlen], fun k hk i hi => ?_⟩
      have hmod : (q.modify (n / 8) (· ||| 0x80 >>> UInt8.ofNat (n % 8))).getD k 0 =
          if n / 8 = k then q.getD k 0 ||| 0x80 >>> UInt8.ofNat (n % 8) else q.getD k 0 := by
        rw [List.getD_eq_getElem?_getD, List.getElem?_modify, List.getD_eq_getElem?_getD,
          List.getElem?_eq_getElem (hlen ▸ hk)]
        split_ifs <;> rfl
      rw [hmod]
      split_ifs with hbyte
      · -- the byte of the bit
        rw [testByte_or _ hi (Nat.mod_lt _ (by decide)), hbits k hk i hi, Bool.or_assoc]
        congr 1
        by_cases heq : i = n % 8
        · have hidx : 8 * k + i = n := by omega
          rw [hidx, hget, decide_eq_true heq, decide_eq_true (Nat.lt_succ_self n), Bool.or_true]
          rfl
        · have hlt : 8 * k + i < n ↔ 8 * k + i < n + 1 := by omega
          rw [decide_eq_false heq, Bool.or_false, decide_eq_decide.2 hlt]
      · have hlt : 8 * k + i < n ↔ 8 * k + i < n + 1 := by omega
        rw [hbits k hk i hi, decide_eq_decide.2 hlt]
    · refine ⟨hlen, fun k hk i hi => ?_⟩
      rw [hbits k hk i hi]
      congr 1
      -- a bit which is not set changes nothing
      by_cases hidx : 8 * k + i = n
      · rw [hidx, Bool.eq_false_iff.2 hget, Bool.and_false, Bool.and_false]
      · have hlt : 8 * k + i < n ↔ 8 * k + i < n + 1 := by omega
        rw [decide_eq_decide.2 hlt]

/-- The loop of the writers, in bytes which are zero. -/
theorem setBits_zero (bf : Bitfield) :
    bf.setBits (List.replicate bf.toDatumSize 0) = bf.toDatum := by
  obtain ⟨hlen, hbits⟩ := testByte_setBits bf (List.replicate bf.toDatumSize 0) bf.length
  rw [List.length_replicate] at hlen hbits
  refine List.ext_getElem (hlen.trans length_toDatum.symm) fun k hk hk' => ?_
  have hlt : k < bf.toDatumSize := hlen ▸ hk
  refine ext_testByte fun i hi => ?_
  have hbit := hbits k hlt i hi
  have hzero : testByte ((List.replicate bf.toDatumSize (0 : UInt8)).getD k 0) i = false := by
    rw [List.getD_replicate _ hlt, testByte, UInt8.zero_and]
    rfl
  have hdatum : bf.toDatum[k] = packByte fun i => bf.get (8 * k + i) := by
    simp only [toDatum, List.getElem_map, List.getElem_range]
  rw [hzero, Bool.false_or] at hbit
  rw [hdatum, testByte_packByte _ hi]
  refine (congrArg (testByte · i) (List.getD_eq_getElem _ _ hk)).symm.trans (hbit.trans ?_)
  by_cases hin : 8 * k + i < bf.length
  · rw [decide_eq_true hin, Bool.true_and]
  · rw [decide_eq_false hin, Bool.false_and, get_of_le (not_lt.1 hin)]

/-- The bits after the first `n` turns of the loop of the readers. -/
theorem get_testBits (p : Datum) (bf : Bitfield) {n : ℕ} (hn : n ≤ bf.length) :
    (testBits p n bf).length = bf.length ∧ ∀ i,
      (testBits p n bf).get i =
        if i < n ∧ testByte (p.getD (i / 8) 0) (i % 8) = true then true else bf.get i := by
  induction n with
  | zero => exact ⟨rfl, fun i => (if_neg fun h => Nat.not_lt_zero _ h.1).symm⟩
  | succ n ih =>
    obtain ⟨hlen, hbits⟩ := ih (Nat.le_of_succ_le hn)
    have hsucc : testBits p (n + 1) bf =
        if testByte (p.getD (n / 8) 0) (n % 8) then (testBits p n bf).set n
        else testBits p n bf := by
      rw [testBits, List.range_succ, List.foldl_append]
      rfl
    rw [hsucc]
    split_ifs with htest
    · refine ⟨by rw [length_set, hlen], fun i => ?_⟩
      rw [get_set, hbits]
      by_cases hi : i = n
      · rw [hi, if_pos ⟨rfl, by omega⟩, if_pos ⟨Nat.lt_succ_self n, htest⟩]
      · rw [if_neg fun h => hi h.1]
        congr 1
        rw [eq_iff_iff]
        exact and_congr_left fun _ => by omega
    · refine ⟨hlen, fun i => ?_⟩
      rw [hbits]
      by_cases hi : i = n
      · rw [hi, if_neg fun h => Nat.lt_irrefl n h.1, if_neg fun h => htest h.2]
      · congr 1
        rw [eq_iff_iff]
        exact and_congr_left fun _ => by omega

/-- The loop of the readers, in a bitfield without a bit. -/
theorem testBits_ofSize (p : Datum) (n : ℕ) : testBits p n (ofSize n) = bitsOfDatum p n := by
  obtain ⟨hlen, hbits⟩ := get_testBits p (ofSize n) (n := n) (length_ofSize n).ge
  rw [length_ofSize] at hlen
  refine ext_get (hlen.trans (length_bitsOfDatum p n).symm) fun i hi => ?_
  rw [hlen] at hi
  have hget : (bitsOfDatum p n).get i = testByte (p.getD (i / 8) 0) (i % 8) := by
    simp [get, bitsOfDatum, List.getD_eq_getElem?_getD, hi]
  rw [hbits, hget, get_ofSize]
  cases testByte (p.getD (i / 8) 0) (i % 8)
  · exact if_neg fun h => Bool.false_ne_true h.2
  · exact if_pos ⟨hi, rfl⟩

/-- `serial << bitfield_t`. -/
def serialize (size_t : SizeT) (serial : Datum) (bitfield : Bitfield) : Datum :=
  let nb_byte := ceilDiv bitfield.length 8
  let datum := bitfield.setBits (List.replicate nb_byte 0)
  serial ++ size_t.write bitfield.length ++ datum

/-- The bytes of a bitfield of `nb_bit`: the bits beyond the last one are zero. -/
def Padded (nb_bit : ℕ) (datum : Datum) : Prop :=
  datum.length = ceilDiv nb_bit 8 ∧
    ∀ i, nb_bit ≤ i → testByte (datum.getD (i / 8) 0) (i % 8) = false

theorem testByte_toDatum (bf : Bitfield) (i : ℕ) :
    testByte (bf.toDatum.getD (i / 8) 0) (i % 8) = bf.get i := by
  by_cases hk : i / 8 < bf.toDatumSize
  · have hbyte : bf.toDatum.getD (i / 8) 0 = packByte fun j => bf.get (8 * (i / 8) + j) := by
      simp [toDatum, List.getD_eq_getElem?_getD, hk]
    rw [hbyte, testByte_packByte _ (Nat.mod_lt _ (by decide)), Nat.div_add_mod]
  · have hle : bf.length ≤ i := by
      rw [toDatumSize, ceilDiv] at hk
      omega
    rw [List.getD_eq_default _ _ (length_toDatum.trans_le (not_lt.1 hk)), get_of_le hle, testByte,
      UInt8.zero_and]
    rfl

theorem padded_toDatum (bf : Bitfield) : Padded bf.length bf.toDatum :=
  ⟨length_toDatum, fun i hi => by rw [testByte_toDatum, get_of_le hi]⟩

/-- The bits of the bytes of a bitfield. -/
theorem bitsOfDatum_toDatum (bf : Bitfield) : bitsOfDatum bf.toDatum bf.length = bf := by
  have hsize : bf.toDatum.length = (ofSize bf.length).toDatumSize := by
    rw [length_toDatum, toDatumSize, toDatumSize, length_ofSize]
  have hround := fromDatum_toDatum bf
  rwa [fromDatum, if_neg (not_not.2 hsize)] at hround

end Bitfield

namespace Pieceavail

def nbByteNeeded (pa : Pieceavail) : ℕ := ceilDiv pa.length 8

/-- `btformat_to_pkt`. -/
def btformatToPkt (pkt : Datum) (pa : Pieceavail) : Datum :=
  pkt ++ Bitfield.setBits pa (List.replicate pa.nbByteNeeded 0)

end Pieceavail

namespace Platform

open Bitfield

/-! ### Readers -/

variable (p : Platform)

/-- The constructor of `bitfield_t`. -/
def makeBitfield (nb_bit : ℕ) : Option Bitfield :=
  if nb_bit ≤ p.capacity then some (ofSize nb_bit) else none

/-- `bitfield_t::from_datum`: the null bitfield if the size is not the proper one. -/
def fromDatum (datum : Datum) (nb_bit : ℕ) : Option Bitfield :=
  (p.makeBitfield nb_bit).map fun bitfield =>
    if datum.length ≠ bitfield.toDatumSize then [] else testBits datum nb_bit bitfield

/-- `serial_t::head_consume`. -/
def headConsume (pkt : Datum) (len : ℕ) : Option (Except String (Datum × Datum)) :=
  if pkt.length < len then
    if p.dbg_assert then none else some (.error "ByteArray too short.")
  else some (.ok (pkt.take len, pkt.drop len))

/-- `btformat_from_pkt`, with what is left of the packet. -/
def btformatFromPkt (pkt : Datum) (nb_piece : ℕ) : Option (Except String (Pieceavail × Datum)) :=
  (p.makeBitfield nb_piece).bind fun bt_pieceavail =>
    (p.headConsume pkt (Pieceavail.nbByteNeeded bt_pieceavail)).map fun consumed =>
      consumed.map fun (datum, pkt) => (testBits datum nb_piece bt_pieceavail, pkt)

/-- `serial >> bitfield_t`, with what is left of the serial. -/
def unserialize (serial : Datum) : Option (Except String (Bitfield × Datum)) :=
  match p.size_t.read serial with
  | none => some (.error p.size_t.tooShort)
  | some (nb_bit, serial) =>
    (p.makeBitfield nb_bit).map fun bitfield =>
      let nb_byte := ceilDiv bitfield.length 8
      if serial.length < nb_byte then .error "bitfield_t too short"
      else .ok (testBits (serial.take nb_byte) nb_bit bitfield, serial.drop nb_byte)

/-! ### Round trips -/

/-- What is written of a bitfield is read back, whatever follows it. -/
structure RoundTrips (bf : Bitfield) : Prop where
  datum : p.fromDatum bf.toDatum bf.length = some bf
  btformat : ∀ rest,
    p.btformatFromPkt (Pieceavail.btformatToPkt [] bf ++ rest) bf.length = some (.ok (bf, rest))
  serial : ∀ rest, p.unserialize (bf.serialize p.size_t [] ++ rest) = some (.ok (bf, rest))

/-- What is written of a bitfield is zero beyond its last bit. -/
structure ZeroPadded (bf : Bitfield) : Prop where
  datum : Padded bf.length bf.toDatum
  btformat : ∀ pkt, ∃ datum, Pieceavail.btformatToPkt pkt bf = pkt ++ datum ∧
    Padded bf.length datum
  serial : ∀ serial, ∃ datum,
    bf.serialize p.size_t serial = serial ++ p.size_t.write bf.length ++ datum ∧
      Padded bf.length datum

/-- Each of the readers raises an error (it is the null bitfield of `from_datum`), or its bitfield
has the number of bits which was asked for, or read. -/
structure Sound (word : Datum) (nb_bit : ℕ) : Prop where
  datum : ∃ bf, p.fromDatum word nb_bit = some bf ∧ (bf = [] ∨ bf.length = nb_bit)
  btformat : ∃ r, p.btformatFromPkt word nb_bit = some r ∧
    ∀ pa rest, r = .ok (pa, rest) → pa.nb_piece = nb_bit
  serial : ∃ r, p.unserialize word = some r ∧
    ∀ bf rest, r = .ok (bf, rest) → ∃ tail, p.size_t.read word = some (bf.length, tail)

variable {p} {bf : Bitfield} {word : Datum} {n nb_bit : ℕ}

theorem makeBitfield_eq_some : p.makeBitfield n = some bf ↔ n ≤ p.capacity ∧ ofSize n = bf := by
  rw [makeBitfield]
  split_ifs with h
  · simp [h]
  · simp [h]

theorem makeBitfield_of_le (h : n ≤ p.capacity) : p.makeBitfield n = some (ofSize n) := if_pos h

theorem headConsume_append (datum rest : Datum) :
    p.headConsume (datum ++ rest) datum.length = some (.ok (datum, rest)) := by
  have hle : datum.length ≤ (datum ++ rest).length := by
    rw [List.length_append]
    exact Nat.le_add_right _ _
  rw [headConsume, if_neg (not_lt.2 hle), List.take_left' rfl, List.drop_left' rfl]

theorem roundTrips (bf : p.Held) : p.RoundTrips bf.1 := by
  obtain ⟨bf, hbf⟩ := bf
  have hmake := makeBitfield_of_le hbf
  have hsize : (ofSize bf.length).toDatumSize = bf.toDatum.length := by
    rw [length_toDatum, toDatumSize, toDatumSize, length_ofSize]
  have hread : testBits bf.toDatum bf.length (ofSize bf.length) = bf := by
    rw [testBits_ofSize, bitsOfDatum_toDatum]
  refine ⟨?_, fun rest => ?_, fun rest => ?_⟩
  · rw [fromDatum, hmake, Option.map_some, if_neg (not_not.2 hsize.symm), hread]
  · have hpkt : Pieceavail.btformatToPkt [] bf = bf.toDatum := setBits_zero bf
    have hneeded : Pieceavail.nbByteNeeded (ofSize bf.length) = bf.toDatum.length := hsize
    rw [btformatFromPkt, hmake, Option.bind_some, hpkt, hneeded, headConsume_append]
    show some (Except.ok (testBits _ _ _, rest)) = _
    rw [hread]
  · have hserial : bf.serialize p.size_t [] = p.size_t.write bf.length ++ bf.toDatum :=
      congrArg (p.size_t.write bf.length ++ ·) (setBits_zero bf)
    have hlen : ceilDiv (ofSize bf.length).length 8 = bf.toDatum.length := hsize
    have hle : ¬(bf.toDatum ++ rest).length < bf.toDatum.length := by
      rw [List.length_append]
      omega
    rw [unserialize, hserial, List.append_assoc, SizeT.read_write (Held.length_lt ⟨bf, hbf⟩)]
    dsimp only
    rw [hmake, Option.map_some, hlen, if_neg hle, List.take_left' rfl, List.drop_left' rfl, hread]

theorem zeroPadded (bf : p.Held) : p.ZeroPadded bf.1 where
  datum := padded_toDatum bf.1
  btformat pkt := ⟨bf.1.toDatum, congrArg (pkt ++ ·) (setBits_zero bf.1), padded_toDatum bf.1⟩
  serial serial :=
    ⟨bf.1.toDatum, congrArg (serial ++ p.size_t.write bf.1.length ++ ·) (setBits_zero bf.1),
      padded_toDatum bf.1⟩

/-! ### What is read of any bytes -/

theorem fromDatum_spec (h : nb_bit ≤ p.capacity) :
    ∃ bf, p.fromDatum word nb_bit = some bf ∧ (bf = [] ∨ bf.length = nb_bit) := by
  refine ⟨_, by rw [fromDatum, makeBitfield_of_le h, Option.map_some], ?_⟩
  split_ifs
  · exact .inl rfl
  · rw [testBits_ofSize]
    exact .inr (length_bitsOfDatum _ _)

/-- The packet has to be long enough where this is asserted. -/
theorem btformatFromPkt_eq_some_iff :
    (∃ r, p.btformatFromPkt word nb_bit = some r ∧
        ∀ pa rest, r = .ok (pa, rest) → pa.nb_piece = nb_bit) ↔
      nb_bit ≤ p.capacity ∧ (p.dbg_assert = true → ceilDiv nb_bit 8 ≤ word.length) := by
  have hneeded : Pieceavail.nbByteNeeded (ofSize nb_bit) = ceilDiv nb_bit 8 :=
    congrArg (ceilDiv · 8) (length_ofSize nb_bit)
  by_cases hcap : nb_bit ≤ p.capacity
  · rw [btformatFromPkt, makeBitfield_of_le hcap, Option.bind_some, hneeded, headConsume]
    by_cases hshort : word.length < ceilDiv nb_bit 8
    · rw [if_pos hshort]
      cases hassert : p.dbg_assert
      · -- the exception of `range`
        refine iff_of_true ⟨_, rfl, ?_⟩ ⟨hcap, nofun⟩
        rintro pa rest ⟨⟩
      · refine iff_of_false ?_ fun h => absurd (h.2 rfl) (not_le.2 hshort)
        rintro ⟨r, hr, -⟩
        cases hr
    · rw [if_neg hshort]
      refine iff_of_true ⟨_, rfl, ?_⟩ ⟨hcap, fun _ => not_lt.1 hshort⟩
      rintro pa rest heq
      cases heq
      rw [testBits_ofSize]
      exact length_bitsOfDatum _ _
  · refine iff_of_false ?_ fun h => hcap h.1
    rintro ⟨r, hr, -⟩
    rw [btformatFromPkt, makeBitfield, if_neg hcap] at hr
    cases hr

/-- The number of bits which is read has to be one of a vector. -/
theorem unserialize_eq_some_iff :
    (∃ r, p.unserialize word = some r ∧
        ∀ bf rest, r = .ok (bf, rest) → ∃ tail, p.size_t.read word = some (bf.length, tail)) ↔
      ∀ n rest, p.size_t.read word = some (n, rest) → n ≤ p.capacity := by
  rw [unserialize]
  rcases hread : p.size_t.read word with - | ⟨n, tail⟩
  · refine iff_of_true ⟨_, rfl, ?_⟩ nofun
    rintro bf rest ⟨⟩
  · dsimp only
    constructor
    · rintro ⟨r, hr, -⟩ n' rest heq
      obtain ⟨rfl, -⟩ := Prod.mk.inj (Option.some.inj heq)
      obtain ⟨bf, hmake, -⟩ := Option.map_eq_some_iff.1 hr
      exact (makeBitfield_eq_some.1 hmake).1
    · intro h
      rw [makeBitfield_of_le (h n tail rfl), Option.map_some]
      refine ⟨_, rfl, fun bf rest heq => ?_⟩
      split_ifs at heq
      cases heq
      rw [testBits_ofSize, length_bitsOfDatum]
      exact ⟨tail, rfl⟩

/-- **The readers are sound** exactly when a vector takes the number of bits which they are given,
or which they read, and the packet is long enough where this is asserted. -/
theorem sound_iff : p.Sound word nb_bit ↔
    nb_bit ≤ p.capacity ∧ (∀ n rest, p.size_t.read word = some (n, rest) → n ≤ p.capacity) ∧
      (p.dbg_assert = true → ceilDiv nb_bit 8 ≤ word.length) := by
  constructor
  · rintro ⟨-, hbtformat, hserial⟩
    obtain ⟨hcap, hlen⟩ := btformatFromPkt_eq_some_iff.1 hbtformat
    exact ⟨hcap, unserialize_eq_some_iff.1 hserial, hlen⟩
  · rintro ⟨hcap, hread, hlen⟩
    exact ⟨fromDatum_spec hcap, btformatFromPkt_eq_some_iff.2 ⟨hcap, hlen⟩,
      unserialize_eq_some_iff.2 hread⟩

/-- **The codecs of a bitfield**: the round trips and the padding hold of every bitfield, and the
readers are sound on the bytes on which `sound_iff` says they are. -/
theorem codecs_iff (p : Platform) (bf : p.Held) (word : Datum) (nb_bit : ℕ) :
    (p.RoundTrips bf.1 ∧ p.ZeroPadded bf.1 ∧ p.Sound word nb_bit) ↔
      nb_bit ≤ p.capacity ∧ (∀ n rest, p.size_t.read word = some (n, rest) → n ≤ p.capacity) ∧
        (p.dbg_assert = true → ceilDiv nb_bit 8 ≤ word.length) := by
  rw [← sound_iff]
  exact ⟨fun h => h.2.2, fun h => ⟨roundTrips bf, zeroPadded bf, h⟩⟩

/-- A number of bits of `2^64 - 1` ends the program, whatever memory there is. -/
theorem not_codecs :
    ¬ (Platform.mk .uint64 false (2 ^ 63 - 64) (by decide)).Sound (List.replicate 8 0xFF) 8 := by
  intro h
  have hle := (sound_iff.1 h).2.1 (2 ^ 64 - 1) [] (by decide)
  exact absurd hle (by decide)

end Platform

end Neoip
