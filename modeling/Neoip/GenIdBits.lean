/-
Neoip/GenIdBits.lean

The bit operations and the comparisons of `gen_id_t`, on the bytes of its buffer.

`bit_clear_n_highest` works on a copy of the identifier: its loop zeroes the full
bytes, and the byte after them is masked.  The copy is seen as the memory from its
buffer on, with the offsets which are read or written (`Frame`); what is behind the
buffer is any bytes.  There is a byte after the full ones only when there are fewer
than `8 * nb_byte` bits to clear.  The bits are the right ones all the same.

Main results: `clears_iff`, and `bitArithmetic_iff` with the other operations.
-/
import Neoip.GenId

namespace Neoip

namespace XorDist

/-- The carries are missing from an exclusive or. -/
theorem xor_le_add (x y : ℕ) : x ^^^ y ≤ x + y := by
  induction x using Nat.strong_induction_on generalizing y with
  | _ x ih =>
    rcases Nat.eq_zero_or_pos x with rfl | hpos
    · rw [Nat.zero_xor, Nat.zero_add]
    · have hhalf := ih (x / 2) (Nat.div_lt_self hpos Nat.one_lt_two) (y / 2)
      have hdiv : (x ^^^ y) / 2 = x / 2 ^^^ y / 2 :=
        Nat.shiftRight_xor_distrib (a := x) (b := y) (i := 1)
      have hmod : (x ^^^ y) % 2 = (x + y) % 2 := Nat.xor_mod_two_eq
      omega

/-- The triangle inequality, through a third number. -/
theorem xor_le_xor_add_xor (x y z : ℕ) : x ^^^ z ≤ (x ^^^ y) + (y ^^^ z) := by
  rw [xor_eq_xor_xor x y z]
  exact xor_le_add _ _

end XorDist

namespace GenId

variable {nb_byte : ℕ}

/-! ### Comparing -/

/-- `memcmp` of two buffers of one size: the difference of the first bytes which are not the
same. -/
def memcmp : Datum → Datum → ℤ
  | a :: s, b :: t => if a = b then memcmp s t else a.toNat - b.toNat
  | [], _ => 0
  | _ :: _, [] => 0

/-- `is_null`. -/
def isNull (id : GenId nb_byte) : Bool :=
  let null_id : GenId nb_byte := 0
  !(memcmp id.toStdstring null_id.toStdstring != 0)

def compare (id other : GenId nb_byte) : ℤ :=
  if id.isNull && !other.isNull then -1
  else if !id.isNull && other.isNull then 1
  else if id.isNull && other.isNull then 0
  else memcmp id.toStdstring other.toStdstring

/-- `operator ==`, and the other ones in the order of the header. -/
def eq (id other : GenId nb_byte) : Bool := id.compare other = 0
def ne (id other : GenId nb_byte) : Bool := id.compare other ≠ 0
def lt (id other : GenId nb_byte) : Bool := id.compare other < 0
def le (id other : GenId nb_byte) : Bool := id.compare other ≤ 0
def gt (id other : GenId nb_byte) : Bool := id.compare other > 0
def ge (id other : GenId nb_byte) : Bool := id.compare other ≥ 0

@[simp] theorem memcmp_self (s : Datum) : memcmp s s = 0 := by
  induction s with
  | nil => rfl
  | cons a s ih => rw [memcmp, if_pos rfl, ih]

/-- The last bytes count when the others are the same. -/
theorem memcmp_append_singleton {s t : Datum} (hlen : s.length = t.length) (a b : UInt8) :
    memcmp (s ++ [a]) (t ++ [b])
      = if memcmp s t = 0 then (a.toNat : ℤ) - b.toNat else memcmp s t := by
  induction s generalizing t with
  | nil =>
    obtain rfl := List.length_eq_zero_iff.1 hlen.symm
    show memcmp [a] [b] = if (0 : ℤ) = 0 then (a.toNat : ℤ) - b.toNat else 0
    rw [if_pos rfl, memcmp, memcmp]
    split_ifs with hab
    · rw [hab, Int.sub_self]
    · rfl
  | cons c s ih =>
    rcases t with - | ⟨d, t⟩
    · cases hlen
    · rw [List.cons_append, List.cons_append, memcmp, memcmp]
      by_cases hcd : c = d
      · rw [if_pos hcd, if_pos hcd, ih (Nat.succ.inj hlen)]
      · have hne : (c.toNat : ℤ) - d.toNat ≠ 0 := by
          have := mt UInt8.toNat_inj.1 hcd
          omega
        rw [if_neg hcd, if_neg hcd, if_neg hne]

/-- The buffers compare as their numbers. -/
theorem memcmp_bytesOf (k : ℕ) {m n : ℕ} (hm : m < 256 ^ k) (hn : n < 256 ^ k) :
    (memcmp (bytesOf k m) (bytesOf k n) < 0 ↔ m < n) ∧
      (0 < memcmp (bytesOf k m) (bytesOf k n) ↔ n < m) := by
  induction k generalizing m n with
  | zero =>
    have hm : m < 1 := hm
    have hn : n < 1 := hn
    have h0 : memcmp (bytesOf 0 m) (bytesOf 0 n) = 0 := rfl
    omega
  | succ k ih =>
    rw [Nat.pow_succ] at hm hn
    obtain ⟨hlt, hgt⟩ := ih (m := m / 256) (n := n / 256) (by omega) (by omega)
    rw [bytesOf, bytesOf,
      memcmp_append_singleton ((length_bytesOf _ _).trans (length_bytesOf _ _).symm),
      UInt8.toNat_ofNat', UInt8.toNat_ofNat']
    split_ifs with h0
    · -- the higher bytes are the same
      have hsame : m / 256 = n / 256 := by omega
      omega
    · omega

theorem toNat_lt (id : GenId nb_byte) : id.toNat < 256 ^ nb_byte := by
  rw [show 256 = 2 ^ 8 from rfl, ← Nat.pow_mul]
  exact id.isLt

theorem memcmp_toStdstring (id other : GenId nb_byte) :
    (memcmp id.toStdstring other.toStdstring < 0 ↔ id.toNat < other.toNat) ∧
      (0 < memcmp id.toStdstring other.toStdstring ↔ other.toNat < id.toNat) :=
  memcmp_bytesOf nb_byte id.toNat_lt other.toNat_lt

theorem isNull_iff (id : GenId nb_byte) : id.isNull = true ↔ id.toNat = 0 := by
  obtain ⟨hlt, hgt⟩ := memcmp_toStdstring id 0
  have h0 : (0 : GenId nb_byte).toNat = 0 := rfl
  rw [isNull, Bool.not_eq_true', bne_eq_false_iff_eq]
  omega

/-- **The order**: `compare` has the sign of the difference of the numbers. -/
theorem sign_compare (id other : GenId nb_byte) :
    (id.compare other).sign = ((id.toNat : ℤ) - other.toNat).sign := by
  obtain ⟨hlt, hgt⟩ := memcmp_toStdstring id other
  have hid := id.isNull_iff
  have hother := other.isNull_iff
  rw [compare]
  cases h : id.isNull <;> cases h' : other.isNull
  all_goals simp only [h, h', Bool.not_true, Bool.not_false, Bool.and_true, Bool.and_false,
    Bool.and_self, if_true, if_false, Bool.false_eq_true, false_iff, true_iff] at hid hother ⊢
  · rcases lt_trichotomy id.toNat other.toNat with hcmp | hcmp | hcmp
    · rw [Int.sign_eq_neg_one_of_neg (hlt.2 hcmp), Int.sign_eq_neg_one_of_neg (by omega)]
    · rw [toStdstring, toStdstring, hcmp, memcmp_self, Int.sub_self]
    · rw [Int.sign_eq_one_of_pos (hgt.2 hcmp), Int.sign_eq_one_of_pos (by omega)]
  · rw [Int.sign_eq_one_of_pos (by omega), Int.sign_eq_one_of_pos (by omega)]
  · rw [Int.sign_eq_neg_one_of_neg (by omega), Int.sign_eq_neg_one_of_neg (by omega)]
  · rw [hid, hother]
    rfl

/-! ### The exclusive or -/

/-- `operator ^`. -/
def xor (id other : GenId nb_byte) : GenId nb_byte :=
  BitVec.ofNat _ (ofBytes (List.zipWith (· ^^^ ·) id.toStdstring other.toStdstring))

theorem zipWith_xor_bytesOf (k m n : ℕ) :
    List.zipWith (· ^^^ ·) (bytesOf k m) (bytesOf k n) = bytesOf k (m ^^^ n) := by
  induction k generalizing m n with
  | zero => rfl
  | succ k ih =>
    have hdiv : (m ^^^ n) / 256 = m / 256 ^^^ n / 256 := by
      have hshift := Nat.shiftRight_xor_distrib (a := m) (b := n) (i := 8)
      rwa [Nat.shiftRight_eq_div_pow, Nat.shiftRight_eq_div_pow,
        Nat.shiftRight_eq_div_pow] at hshift
    rw [bytesOf, bytesOf, bytesOf,
      List.zipWith_append ((length_bytesOf _ _).trans (length_bytesOf _ _).symm), ih, hdiv,
      UInt8.ofNat_xor]
    rfl

@[simp] theorem toNat_xor (id other : GenId nb_byte) :
    (id.xor other).toNat = id.toNat ^^^ other.toNat := by
  have hlt : id.toNat ^^^ other.toNat < 2 ^ (8 * nb_byte) := Nat.xor_lt_two_pow id.isLt other.isLt
  rw [xor, toStdstring, toStdstring, zipWith_xor_bytesOf, ofBytes_bytesOf, BitVec.toNat_ofNat,
    show 256 = 2 ^ 8 from rfl, ← Nat.pow_mul, Nat.mod_mod, Nat.mod_eq_of_lt hlt]

/-! ### Clearing -/

/-- The memory from a buffer on, and the offsets which were read or written. -/
structure Frame where
  mem : ℕ → UInt8
  touched : List ℕ

namespace Frame

def write (s : Frame) (i : ℕ) (b : UInt8) : Frame where
  mem := Function.update s.mem i b
  touched := s.touched ++ [i]

/-- `buffer[i] &= mask`: the byte is read, and written. -/
def writeAnd (s : Frame) (i mask : ℕ) : Frame :=
  { s with touched := s.touched ++ [i] }.write i (UInt8.ofNat ((s.mem i).toNat &&& mask))

/-- The loop which zeroes the full bytes, its first `i` rounds. -/
def zeroBytes (s : Frame) : ℕ → Frame
  | 0 => s
  | i + 1 => (s.zeroBytes i).write i 0

/-- The identifier which is in the buffer. -/
def id (s : Frame) (nb_byte : ℕ) : GenId nb_byte :=
  BitVec.ofNat _ (ofBytes ((List.range nb_byte).map s.mem))

end Frame

/-- A copy of an identifier, which the bytes `behind` are behind of. -/
def copy (id : GenId nb_byte) (behind : ℕ → UInt8) : Frame where
  mem i := if i < nb_byte then id.toStdstring.getD i 0 else behind (i - nb_byte)
  touched := []

/-- `bit_clear_n_highest`: what its copy of the identifier has become, unless the assertion
fails. -/
def bitClearNHighest (id : GenId nb_byte) (behind : ℕ → UInt8) (n_bit : ℕ) : Option Frame :=
  let n_byte_to_clear := n_bit / 8
  let last_byte_mask := 0xff >>> (n_bit % 8)
  if n_bit ≤ nb_byte * 8 then
    some (((id.copy behind).zeroBytes n_byte_to_clear).writeAnd n_byte_to_clear last_byte_mask)
  else none

namespace Frame

theorem touched_zeroBytes (s : Frame) (k : ℕ) :
    (s.zeroBytes k).touched = s.touched ++ List.range k := by
  induction k with
  | zero => exact (List.append_nil _).symm
  | succ k ih =>
    show (s.zeroBytes k).touched ++ [k] = _
    rw [ih, List.range_succ, List.append_assoc]

theorem mem_zeroBytes (s : Frame) (k i : ℕ) :
    (s.zeroBytes k).mem i = if i < k then 0 else s.mem i := by
  induction k with
  | zero => rfl
  | succ k ih =>
    show Function.update (s.zeroBytes k).mem k 0 i = _
    rw [Function.update_apply, ih]
    split_ifs with heq hlt hlt hlt' hlt'
    all_goals first | rfl | omega

end Frame

/-- The mask keeps the low bits of its byte. -/
theorem and_mask (b : ℕ) {r : ℕ} (hr : r < 8) : b % 256 &&& 0xff >>> r = b % 2 ^ (8 - r) := by
  have hmask : 0xff >>> r = 2 ^ (8 - r) - 1 := by
    rw [Nat.shiftRight_eq_div_pow]
    have : ∀ r < 8, 0xff / 2 ^ r = 2 ^ (8 - r) - 1 := by decide
    exact this r hr
  have hdvd : 2 ^ (8 - r) ∣ 256 := pow_dvd_pow 2 (by omega : 8 - r ≤ 8)
  rw [hmask, Nat.and_two_pow_sub_one_eq_mod, Nat.mod_mod_of_dvd _ hdvd]

/-- The bytes of a remainder: those which are cut off are null. -/
theorem mod_two_pow_div (v j m : ℕ) :
    v % 2 ^ m / 256 ^ j = if 8 * j ≤ m then v / 256 ^ j % 2 ^ (m - 8 * j) else 0 := by
  have h256 : 256 ^ j = 2 ^ (8 * j) := by rw [show 256 = 2 ^ 8 from rfl, ← Nat.pow_mul]
  rw [h256]
  split_ifs with hle
  · have hsplit : 2 ^ m = 2 ^ (8 * j) * 2 ^ (m - 8 * j) := by
      rw [← Nat.pow_add, Nat.add_sub_cancel' hle]
    rw [hsplit, Nat.mod_mul_right_div_self]
  · have hlt := Nat.mod_lt v (Nat.two_pow_pos m)
    have hpow : 2 ^ m ≤ 2 ^ (8 * j) := Nat.pow_le_pow_right Nat.two_pos (by omega)
    exact Nat.div_eq_of_lt (lt_of_lt_of_le hlt hpow)

/-- A byte of the cleared copy is the one of the remainder. -/
theorem mem_clear (id : GenId nb_byte) (behind : ℕ → UInt8) (n_bit : ℕ) {i : ℕ}
    (hi : i < nb_byte) :
    (((id.copy behind).zeroBytes (n_bit / 8)).writeAnd (n_bit / 8) (0xff >>> (n_bit % 8))).mem i
      = UInt8.ofNat (id.toNat % 2 ^ (8 * nb_byte - n_bit) / 256 ^ (nb_byte - 1 - i)) := by
  have hcopy : (id.copy behind).mem i = UInt8.ofNat (id.toNat / 256 ^ (nb_byte - 1 - i)) := by
    show (if i < nb_byte then _ else _) = _
    rw [if_pos hi, toStdstring, bytesOf_eq_map, List.getD_eq_getElem?_getD, List.getElem?_map,
      List.getElem?_range hi, Option.map_some, Option.getD_some]
  show Function.update _ _ _ i = _
  rw [Function.update_apply, mod_two_pow_div]
  apply UInt8.toNat_inj.1
  rcases lt_trichotomy i (n_bit / 8) with hlt | rfl | hgt
  · -- a full byte
    rw [if_neg (by omega), Frame.mem_zeroBytes, if_pos hlt]
    split_ifs with hle
    · have hzero : 8 * nb_byte - n_bit - 8 * (nb_byte - 1 - i) = 0 := by omega
      rw [hzero, Nat.pow_zero, Nat.mod_one]
      rfl
    · rfl
  · -- the byte of the mask
    rw [if_pos rfl, Frame.mem_zeroBytes, if_neg (lt_irrefl _), hcopy, if_pos (by omega),
      UInt8.toNat_ofNat', UInt8.toNat_ofNat', UInt8.toNat_ofNat', and_mask _ (by omega)]
    congr 3
    omega
  · have hdvd : 256 ∣ 2 ^ (8 * nb_byte - n_bit - 8 * (nb_byte - 1 - i)) :=
      pow_dvd_pow 2 (by omega : 8 ≤ _)
    rw [if_neg (by omega), Frame.mem_zeroBytes, if_neg (by omega), hcopy, if_pos (by omega),
      UInt8.toNat_ofNat', UInt8.toNat_ofNat', Nat.mod_mod_of_dvd _ hdvd]

/-- **Clearing**: the remainder is in the buffer, even when the mask is behind it. -/
theorem bitClearNHighest_eq (id : GenId nb_byte) (behind : ℕ → UInt8) {n_bit : ℕ}
    (hle : n_bit ≤ 8 * nb_byte) :
    ∃ tmp, id.bitClearNHighest behind n_bit = some tmp ∧
      (tmp.id nb_byte).toNat = id.toNat % 2 ^ (8 * nb_byte - n_bit) ∧
      tmp.touched = List.range (n_bit / 8) ++ [n_bit / 8, n_bit / 8] := by
  refine ⟨_, by rw [bitClearNHighest]; exact if_pos (by omega), ?_, ?_⟩
  · have hres := List.map_congr_left fun i hi =>
      mem_clear id behind n_bit (List.mem_range.1 hi)
    have hlt : id.toNat % 2 ^ (8 * nb_byte - n_bit) < 2 ^ (8 * nb_byte) :=
      (Nat.mod_le _ _).trans_lt id.isLt
    rw [Frame.id, hres, ← bytesOf_eq_map, ofBytes_bytesOf, BitVec.toNat_ofNat,
      show 256 = 2 ^ 8 from rfl, ← Nat.pow_mul, Nat.mod_mod, Nat.mod_eq_of_lt hlt]
  · show ((id.copy behind).zeroBytes (n_bit / 8)).touched ++ [n_bit / 8] ++ [n_bit / 8] = _
    rw [Frame.touched_zeroBytes, List.append_assoc]
    rfl

/-! ### The operations together -/

/-- The low bits are kept, and only the buffer is read and written. -/
def Clears (id : GenId nb_byte) (n_bit : ℕ) : Prop :=
  ∀ behind, ∃ tmp, id.bitClearNHighest behind n_bit = some tmp ∧
    (tmp.id nb_byte).toNat = id.toNat % 2 ^ (8 * nb_byte - n_bit) ∧ ∀ i ∈ tmp.touched, i < nb_byte

/-- The operators are those of the numbers. -/
structure Ordered (id other : GenId nb_byte) : Prop where
  eq : id.eq other = decide (id.toNat = other.toNat)
  ne : id.ne other = decide (id.toNat ≠ other.toNat)
  lt : id.lt other = decide (id.toNat < other.toNat)
  le : id.le other = decide (id.toNat ≤ other.toNat)
  gt : id.gt other = decide (id.toNat > other.toNat)
  ge : id.ge other = decide (id.toNat ≥ other.toNat)

/-- The exclusive or is a distance, and the buckets of any width are its consecutive ranges. -/
structure Metric (id other third : GenId nb_byte) : Prop where
  null : (id.xor other).isNull = true ↔ id = other
  symm : id.xor other = other.xor id
  triangle : (id.xor third).toNat ≤ (id.xor other).toNat + (other.xor third).toNat
  bucket : id ≠ other → ∀ kbucket_width > 0, ∀ bucket_idx,
    (id.xor other).bitGetHighestSet / kbucket_width = bucket_idx ↔
      2 ^ (kbucket_width * bucket_idx) ≤ (id.xor other).toNat ∧
        (id.xor other).toNat < 2 ^ (kbucket_width * (bucket_idx + 1))

/-- The operations on bits are those on the number. -/
structure BitArithmetic (id : GenId nb_byte) (n_bit : ℕ) : Prop where
  clear : id.Clears n_bit
  shift : (id.shiftRight n_bit).toNat = id.toNat / 2 ^ n_bit
  highest : id.toNat ≠ 0 → id.bitGetHighestSet = Nat.log2 id.toNat
  order : ∀ other, id.Ordered other
  metric : ∀ other third, id.Metric other third

/-- There is a byte for the mask when not all the bits are cleared. -/
theorem clears_iff (id : GenId nb_byte) {n_bit : ℕ} (hle : n_bit ≤ 8 * nb_byte) :
    id.Clears n_bit ↔ n_bit < 8 * nb_byte := by
  constructor
  · intro h
    obtain ⟨tmp, htmp, -, hin⟩ := h fun _ => 0
    obtain ⟨tmp', htmp', -, htouched⟩ := id.bitClearNHighest_eq (fun _ => 0) hle
    obtain rfl := Option.some.inj (htmp.symm.trans htmp')
    have hmask := hin (n_bit / 8) (by rw [htouched]; simp)
    omega
  · intro hlt behind
    obtain ⟨tmp, htmp, hid, htouched⟩ := id.bitClearNHighest_eq behind hle
    refine ⟨tmp, htmp, hid, fun i hi => ?_⟩
    rw [htouched, List.mem_append, List.mem_range, List.mem_pair, or_self] at hi
    omega

theorem ordered (id other : GenId nb_byte) : id.Ordered other := by
  have hsign := sign_compare id other
  have hlt : id.compare other < 0 ↔ id.toNat < other.toNat := by
    rw [← Int.sign_eq_neg_one_iff_neg, hsign, Int.sign_eq_neg_one_iff_neg]
    omega
  have hgt : 0 < id.compare other ↔ other.toNat < id.toNat := by
    rw [← Int.sign_eq_one_iff_pos, hsign, Int.sign_eq_one_iff_pos]
    omega
  constructor
  · exact decide_eq_decide.2 (by omega)
  · exact decide_eq_decide.2 (by omega)
  · exact decide_eq_decide.2 hlt
  · exact decide_eq_decide.2 (by omega)
  · exact decide_eq_decide.2 hgt
  · exact decide_eq_decide.2 (by omega)

theorem metric (id other third : GenId nb_byte) : id.Metric other third where
  null := by
    rw [isNull_iff, toNat_xor, Nat.xor_eq_zero_iff]
    exact BitVec.toNat_inj
  symm := by
    apply BitVec.eq_of_toNat_eq
    rw [toNat_xor, toNat_xor, Nat.xor_comm]
  triangle := by
    rw [toNat_xor, toNat_xor, toNat_xor]
    exact XorDist.xor_le_xor_add_xor _ _ _
  bucket := by
    intro hne kbucket_width hpos bucket_idx
    have hd : (id.xor other).toNat ≠ 0 := by
      rw [toNat_xor, Ne, Nat.xor_eq_zero_iff]
      exact mt BitVec.toNat_inj.1 hne
    rw [bitGetHighestSet_eq, ← Nat.le_log2 hd, ← Nat.log2_lt hd, Nat.div_eq_iff hpos,
      Nat.mul_succ, Nat.mul_comm bucket_idx]
    omega

/-- **The bit arithmetic** of an identifier, for a number of bits from 0 to all of them. -/
theorem bitArithmetic_iff (id : GenId nb_byte) (n_bit : Fin (8 * nb_byte + 1)) :
    id.BitArithmetic n_bit ↔ (n_bit : ℕ) < 8 * nb_byte := by
  have hclears := id.clears_iff (Nat.le_of_lt_succ n_bit.isLt)
  refine ⟨fun h => hclears.1 h.clear, fun hlt => ⟨hclears.2 hlt, ?_, ?_, id.ordered, id.metric⟩⟩
  · rw [shiftRight_eq, BitVec.toNat_ushiftRight, Nat.shiftRight_eq_div_pow]
  · exact fun _ => id.bitGetHighestSet_eq

/-- All the bits of an identifier on 20 bytes are cleared. -/
theorem not_bitArithmetic : ¬ @BitArithmetic 20 (BitVec.allOnes (8 * 20)) 160 := by
  intro h
  have hlt := (@clears_iff 20 (BitVec.allOnes (8 * 20)) 160 (le_refl 160)).1 h.clear
  exact absurd hlt (by decide)

end GenId

end Neoip
