/-
Neoip/GenId.lean

Identifiers on `nb_byte` bytes, `gen_id_t`, and the XOR distance of Kademlia.

The bytes are those of a number, the most significant one first: `memcmp`
compares the numbers, and the null identifier is 0.

The first part is about numbers.  The ones which agree with `l` above bit `k`
are all as far from a target `t`, above bit `k`, as `l` itself; so a number
which does not agree with `l` there is nearer than all of them, or farther than
all of them, and which of the two is decided on `l` (`xor_lt_iff_of_lt`).  When
`t` agrees too, they are the nearer ones (`xor_lt_of_lt`).

Main results: `bit_get_highest_set` is the binary logarithm
(`bitGetHighestSet_eq`), an identifier is read back from its bytes
(`ofDatum_toStdstring`), and the bytewise shift is that of the number
(`shiftRight_eq`).
-/
import Neoip.Bitfield
import Mathlib.Data.BitVec
import Mathlib.Data.Nat.Bitwise
import Mathlib.Tactic.Common

namespace Neoip

/-! ### The XOR distance of numbers -/

namespace XorDist

variable {k l t x y : ℕ}

theorem shiftRight_eq_zero_iff : x >>> k = 0 ↔ x < 2 ^ k := by
  rw [Nat.shiftRight_eq_div_pow, Nat.div_eq_zero_iff]
  have := Nat.two_pow_pos k
  omega

/-- Numbers compare as their parts above bit `k`, when these are not the same. -/
theorem lt_iff_shiftRight_lt (hne : x >>> k ≠ y >>> k) : x < y ↔ x >>> k < y >>> k := by
  rw [Nat.shiftRight_eq_div_pow, Nat.shiftRight_eq_div_pow] at hne ⊢
  constructor
  · intro hlt
    exact lt_of_le_of_ne (Nat.div_le_div_right (le_of_lt hlt)) hne
  · intro hlt
    exact lt_of_not_ge fun hle => absurd (Nat.div_le_div_right hle) (not_le.2 hlt)

/-- The distance of two numbers, through a third one. -/
theorem xor_eq_xor_xor (x l t : ℕ) : x ^^^ t = (x ^^^ l) ^^^ (l ^^^ t) := by
  rw [Nat.xor_assoc, ← Nat.xor_assoc l l t, Nat.xor_self, Nat.zero_xor]

/-- What agrees with `l` above bit `k` is as far from `t` there as `l` is. -/
theorem shiftRight_xor_eq_iff : (y ^^^ t) >>> k = (l ^^^ t) >>> k ↔ y ^^^ l < 2 ^ k := by
  rw [← shiftRight_eq_zero_iff, Nat.shiftRight_xor_distrib, Nat.shiftRight_xor_distrib,
    Nat.shiftRight_xor_distrib, Nat.xor_eq_zero_iff]
  exact Nat.xor_left_inj

/-- **Prefixes**: `x` is nearer to `t` than what agrees with `l` above bit `k`, when it does not
agree itself, exactly when it is nearer than `l`. -/
theorem xor_lt_iff_of_lt (hy : y ^^^ l < 2 ^ k) (hx : 2 ^ k ≤ x ^^^ l) :
    x ^^^ t < y ^^^ t ↔ x ^^^ t < l ^^^ t := by
  have hpre := (shiftRight_xor_eq_iff (t := t)).2 hy
  have hne : (x ^^^ t) >>> k ≠ (l ^^^ t) >>> k := by
    rw [Ne, shiftRight_xor_eq_iff]
    exact not_lt.2 hx
  rw [lt_iff_shiftRight_lt (k := k) (by rwa [hpre]), lt_iff_shiftRight_lt hne, hpre]

/-- What agrees with `l` above bit `k` is nearer to a target which agrees, than what does not. -/
theorem xor_lt_of_lt (hy : y ^^^ l < 2 ^ k) (hx : 2 ^ k ≤ x ^^^ l) (ht : t ^^^ l < 2 ^ k) :
    y ^^^ t < x ^^^ t := by
  have hyt : y ^^^ t < 2 ^ k := by
    rw [xor_eq_xor_xor y l t, Nat.xor_comm l t]
    exact Nat.xor_lt_two_pow hy ht
  have hxt : 2 ^ k ≤ x ^^^ t := by
    by_contra hlt
    have hlt := Nat.xor_lt_two_pow (not_le.1 hlt) ht
    rw [Nat.xor_assoc, ← Nat.xor_assoc t t l, Nat.xor_self, Nat.zero_xor] at hlt
    exact absurd hx (not_le.2 hlt)
  exact lt_of_lt_of_le hyt hxt

end XorDist

/-! ### Identifiers -/

/-- `gen_id_t<nb_byte>`. -/
abbrev GenId (nb_byte : ℕ) := BitVec (8 * nb_byte)

namespace GenId

variable {nb_byte : ℕ}

/-- The byte which `k` bytes are less significant than. -/
def byte (id : GenId nb_byte) (k : ℕ) : BitVec 8 := id.extractLsb' (8 * k) 8

/-- The first loop of `bit_get_highest_set`: the most significant byte which is not null, of the
`k` least significant ones. -/
def highestByte (id : GenId nb_byte) : ℕ → Option ℕ
  | 0 => none
  | k + 1 => if id.byte k = 0 then highestByte id k else some k

/-- The second loop, from bit `j - 1` down. -/
def highestBit (b : BitVec 8) : ℕ → ℕ
  | 0 => 0
  | j + 1 => if b.getLsbD j then j else highestBit b j

def bitGetHighestSet (id : GenId nb_byte) : ℕ :=
  match id.highestByte nb_byte with
  | none => 0
  | some k => 8 * k + highestBit (id.byte k) 8

theorem getLsbD_byte (id : GenId nb_byte) (k : ℕ) {j : ℕ} (hj : j < 8) :
    (id.byte k).getLsbD j = id.getLsbD (8 * k + j) := by
  rw [byte, BitVec.getLsbD_extractLsb', decide_eq_true hj, Bool.true_and]

theorem highestByte_eq_none {id : GenId nb_byte} {m : ℕ} (h : id.highestByte m = none) :
    ∀ k < m, id.byte k = 0 := by
  induction m with
  | zero =>
    intro k hk
    cases hk
  | succ m ih =>
    rw [highestByte] at h
    split_ifs at h with hzero
    intro k hk
    rcases Nat.lt_succ_iff_lt_or_eq.1 hk with hlt | rfl
    · exact ih h k hlt
    · exact hzero

theorem highestByte_eq_some {id : GenId nb_byte} {m k : ℕ} (h : id.highestByte m = some k) :
    id.byte k ≠ 0 ∧ ∀ k', k < k' → k' < m → id.byte k' = 0 := by
  induction m with
  | zero => cases h
  | succ m ih =>
    rw [highestByte] at h
    split_ifs at h with hzero
    · obtain ⟨hne, habove⟩ := ih h
      refine ⟨hne, fun k' hk hm => ?_⟩
      rcases Nat.lt_succ_iff_lt_or_eq.1 hm with hlt | rfl
      · exact habove k' hk hlt
      · exact hzero
    · obtain rfl := Option.some.inj h
      exact ⟨hzero, fun k' hk hm => absurd hm (not_lt.2 hk)⟩

theorem highestBit_spec {b : BitVec 8} {m : ℕ} (h : ∃ j < m, b.getLsbD j = true) :
    highestBit b m < m ∧ b.getLsbD (highestBit b m) = true ∧
      ∀ j, highestBit b m < j → j < m → b.getLsbD j = false := by
  induction m with
  | zero =>
    obtain ⟨j, hj, -⟩ := h
    cases hj
  | succ m ih =>
    rw [highestBit]
    split_ifs with hm
    · exact ⟨Nat.lt_succ_self m, hm, fun j hj hj' => absurd hj' (not_lt.2 hj)⟩
    · have hlow : ∃ j < m, b.getLsbD j = true := by
        obtain ⟨j, hj, hset⟩ := h
        refine ⟨j, lt_of_le_of_ne (Nat.le_of_lt_succ hj) ?_, hset⟩
        rintro rfl
        exact hm hset
      obtain ⟨hlt, hset, habove⟩ := ih hlow
      refine ⟨Nat.lt_succ_of_lt hlt, hset, fun j hj hj' => ?_⟩
      rcases Nat.lt_succ_iff_lt_or_eq.1 hj' with hjm | rfl
      · exact habove j hj hjm
      · exact Bool.eq_false_iff.2 hm

/-- A number between two powers of two has the lower one's exponent as its logarithm. -/
theorem log2_eq_of_bits {n h : ℕ} (hset : n.testBit h = true)
    (habove : ∀ i, h < i → n.testBit i = false) : Nat.log2 n = h := by
  have hge := Nat.ge_two_pow_of_testBit hset
  have hlt : n < 2 ^ (h + 1) := Nat.lt_pow_two_of_testBit n fun i hi => habove i hi
  have hne : n ≠ 0 := by
    have := Nat.two_pow_pos h
    omega
  exact (Nat.log2_eq_iff hne).2 ⟨hge, hlt⟩

theorem bitGetHighestSet_eq (id : GenId nb_byte) : id.bitGetHighestSet = Nat.log2 id.toNat := by
  have hbits : ∀ k, id.byte k = 0 → ∀ j < 8, id.getLsbD (8 * k + j) = false := by
    intro k hzero j hj
    rw [← getLsbD_byte id k hj, hzero]
    exact BitVec.getLsbD_zero
  rw [bitGetHighestSet]
  rcases hbyte : id.highestByte nb_byte with - | k
  · have hzero : id = 0 := by
      apply BitVec.eq_of_getLsbD_eq
      intro i hi
      have hbit := hbits (i / 8) (highestByte_eq_none hbyte (i / 8) (by omega)) (i % 8) (by omega)
      rw [Nat.div_add_mod] at hbit
      rw [hbit]
      exact BitVec.getLsbD_zero.symm
    rw [hzero]
    rfl
  · obtain ⟨hne, habove⟩ := highestByte_eq_some hbyte
    have hset : ∃ j < 8, (id.byte k).getLsbD j = true := by
      by_contra hall
      apply hne
      apply BitVec.eq_of_getLsbD_eq
      intro j hj
      refine Eq.trans ?_ BitVec.getLsbD_zero.symm
      rw [Bool.eq_false_iff]
      exact fun hbit => hall ⟨j, hj, hbit⟩
    obtain ⟨hlt, hbit, hhigh⟩ := highestBit_spec hset
    symm
    apply log2_eq_of_bits
    · rw [BitVec.testBit_toNat, ← getLsbD_byte id k hlt]
      exact hbit
    · intro i hi
      have hi : 8 * k + highestBit (id.byte k) 8 < i := hi
      rw [BitVec.testBit_toNat]
      by_cases hin : i < 8 * nb_byte
      · have hsplit := Nat.div_add_mod i 8
        rcases Nat.lt_or_ge k (i / 8) with hk | hk
        · rw [← hsplit]
          exact hbits _ (habove _ hk (by omega)) _ (by omega)
        · -- the bit is in the byte itself
          have heq : i / 8 = k := by omega
          rw [← hsplit, heq, ← getLsbD_byte id k (by omega)]
          exact hhigh _ (by omega) (by omega)
      · exact BitVec.getLsbD_of_ge id i (by omega)

/-! ### Bytes -/

/-- The `k` bytes of a number, the most significant one first. -/
def bytesOf : ℕ → ℕ → Datum
  | 0, _ => []
  | k + 1, n => bytesOf k (n / 256) ++ [UInt8.ofNat n]

/-- The number which has the bytes. -/
def ofBytes (buffer : Datum) : ℕ := buffer.foldl (fun n b => n * 256 + b.toNat) 0

/-- `to_stdstring`. -/
def toStdstring (id : GenId nb_byte) : Datum := bytesOf nb_byte id.toNat

/-- The constructor from a `datum_t`: one of another length than the identifier is hashed. -/
def ofDatum (hash : Datum → GenId nb_byte) (datum : Datum) : GenId nb_byte :=
  if datum.length = nb_byte then BitVec.ofNat _ (ofBytes datum) else hash datum

theorem length_bytesOf (k n : ℕ) : (bytesOf k n).length = k := by
  induction k generalizing n with
  | zero => rfl
  | succ k ih => rw [bytesOf, List.length_append, ih, List.length_singleton]

theorem ofBytes_bytesOf (k n : ℕ) : ofBytes (bytesOf k n) = n % 256 ^ k := by
  induction k generalizing n with
  | zero => exact (Nat.mod_one n).symm
  | succ k ih =>
    rw [ofBytes, bytesOf, List.foldl_append]
    show ofBytes (bytesOf k (n / 256)) * 256 + (UInt8.ofNat n).toNat = _
    have hmod : n % 256 ^ (k + 1) = n % 256 + 256 * (n / 256 % 256 ^ k) := by
      rw [Nat.pow_succ', Nat.mod_mul]
    rw [ih, UInt8.toNat_ofNat', hmod]
    omega

@[simp] theorem length_toStdstring (id : GenId nb_byte) : id.toStdstring.length = nb_byte :=
  length_bytesOf _ _

/-- The bytes of an identifier are never hashed. -/
theorem ofDatum_toStdstring (hash : Datum → GenId nb_byte) (id : GenId nb_byte) :
    ofDatum hash id.toStdstring = id := by
  have hpow : 256 ^ nb_byte = 2 ^ (8 * nb_byte) := by
    rw [Nat.pow_mul]
  rw [ofDatum, if_pos (length_toStdstring id), toStdstring, ofBytes_bytesOf, hpow]
  apply BitVec.eq_of_toNat_eq
  rw [BitVec.toNat_ofNat, Nat.mod_mod, Nat.mod_eq_of_lt id.isLt]

/-! ### Shifting -/

/-- The byte of a buffer at an index which may be negative, where it is 0. -/
def bufferAt (buffer : Datum) (i off : ℕ) : ℕ :=
  if i < off then 0 else (buffer.getD (i - off) 0).toNat

/-- `operator >>`. -/
def shiftRight (id : GenId nb_byte) (nb_bit : ℕ) : GenId nb_byte :=
  let byte_off := nb_bit / 8
  let bit_off := nb_bit % 8
  let buffer := id.toStdstring
  let res := (List.range nb_byte).map fun i =>
    let left_val := bufferAt buffer i (byte_off + 1)
    let right_val := bufferAt buffer i byte_off
    UInt8.ofNat (left_val <<< (8 - bit_off) ||| right_val >>> bit_off)
  BitVec.ofNat _ (ofBytes res)

theorem bytesOf_eq_map (k n : ℕ) :
    bytesOf k n = (List.range k).map fun i => UInt8.ofNat (n / 256 ^ (k - 1 - i)) := by
  induction k generalizing n with
  | zero => rfl
  | succ k ih =>
    rw [bytesOf, ih, List.range_succ, List.map_append, List.map_singleton, Nat.add_sub_cancel,
      Nat.sub_self, Nat.pow_zero, Nat.div_one]
    congr 1
    apply List.map_congr_left
    intro i hi
    have hi := List.mem_range.1 hi
    rw [Nat.div_div_eq_div_mul, ← Nat.pow_succ', show (k - 1 - i).succ = k - i by omega]

theorem bufferAt_bytesOf {k n i off : ℕ} (hn : n < 256 ^ k) (hi : i < k) :
    bufferAt (bytesOf k n) i off = n / 256 ^ (k - 1 - i + off) % 256 := by
  rw [bufferAt]
  split_ifs with hoff
  · have hle : 256 ^ k ≤ 256 ^ (k - 1 - i + off) := Nat.pow_le_pow_right (by decide) (by omega)
    rw [Nat.div_eq_of_lt (hn.trans_le hle)]
  · have hlt : i - off < (List.range k).length := by
      rw [List.length_range]
      omega
    rw [bytesOf_eq_map, List.getD_eq_getElem?_getD, List.getElem?_map,
      List.getElem?_eq_getElem hlt, List.getElem_range, Option.map_some, Option.getD_some,
      UInt8.toNat_ofNat']
    rw [show k - 1 - (i - off) = k - 1 - i + off by omega]

/-- A byte of a shifted number is made of two bytes of the number. -/
theorem shift_byte (n j b c : ℕ) (hc : c < 8) :
    ((n / 256 ^ (j + (b + 1)) % 256) <<< (8 - c) ||| (n / 256 ^ (j + b) % 256) >>> c) % 256
      = n / 2 ^ (8 * b + c) / 256 ^ j % 256 := by
  apply Nat.eq_of_testBit_eq
  intro i
  have h256 : ∀ m, 256 ^ m = 2 ^ (8 * m) := fun m => by rw [Nat.pow_mul]
  have h8 : (256 : ℕ) = 2 ^ 8 := rfl
  simp only [h256]
  rw [h8]
  simp only [Nat.testBit_mod_two_pow, Nat.testBit_or, Nat.testBit_shiftLeft, Nat.testBit_shiftRight,
    Nat.testBit_div_two_pow]
  by_cases hi : i < 8
  · by_cases hl : 8 - c ≤ i
    · have h1 : i - (8 - c) < 8 := by omega
      have h2 : ¬ c + i < 8 := by omega
      simp only [hi, hl, h1, h2, decide_true, decide_false, Bool.true_and, Bool.false_and,
        Bool.or_false]
      congr 1
      omega
    · have h2 : c + i < 8 := by omega
      simp only [hi, hl, h2, decide_true, decide_false, Bool.true_and, Bool.false_and,
        Bool.false_or]
      congr 1
      omega
  · simp only [hi, decide_false, Bool.false_and]

theorem shiftRight_eq (id : GenId nb_byte) (nb_bit : ℕ) : id.shiftRight nb_bit = id >>> nb_bit := by
  have hpow : 256 ^ nb_byte = 2 ^ (8 * nb_byte) := by rw [Nat.pow_mul]
  have hlt : id.toNat < 256 ^ nb_byte := hpow ▸ id.isLt
  have hres : (List.range nb_byte).map (fun i =>
      UInt8.ofNat (bufferAt id.toStdstring i (nb_bit / 8 + 1) <<< (8 - nb_bit % 8)
        ||| bufferAt id.toStdstring i (nb_bit / 8) >>> (nb_bit % 8)))
      = bytesOf nb_byte (id.toNat / 2 ^ nb_bit) := by
    rw [bytesOf_eq_map]
    apply List.map_congr_left
    intro i hi
    have hi := List.mem_range.1 hi
    rw [toStdstring, bufferAt_bytesOf hlt hi, bufferAt_bytesOf hlt hi]
    apply UInt8.toNat_inj.1
    rw [UInt8.toNat_ofNat', UInt8.toNat_ofNat', shift_byte _ _ _ _ (Nat.mod_lt _ (by decide)),
      Nat.div_add_mod]
  apply BitVec.eq_of_toNat_eq
  rw [shiftRight]
  dsimp only
  rw [hres, ofBytes_bytesOf, BitVec.toNat_ofNat, hpow, Nat.mod_mod, BitVec.toNat_ushiftRight,
    Nat.shiftRight_eq_div_pow]
  exact Nat.mod_eq_of_lt ((Nat.div_le_self _ _).trans_lt id.isLt)

end GenId

end Neoip
