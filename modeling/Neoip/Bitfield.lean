/-
Neoip/Bitfield.lean

`bitfield_t`, `bt_pieceavail_t` and `bitcount_t`.

A bitfield is the list of its bits.  Reading out of it is an assertion failure
in the source; here such a read is `false` and such a write does nothing.  The
byte form of a bitfield (`to_datum`, and the bittorrent form of
`bt_pieceavail_t`) has the first bit in the highest bit of the first byte.

A bitcount is the list of its counters.  A counter counts objects in memory, so
no `size_t` overflow is reached by counting up; it is kept as an integer, and
`-1` stands for what the decrement of a zero counter leaves.  The assertions of
`bitcount_t` (and an index out of its array) do not stop the program when it is
built without them, so a failed one is recorded in `faults` and the operation
goes on.

Main results: `fromDatum_toDatum`, and one lemma for each counter operation
which says what every counter becomes (`Bitcount.get_inc`, …) and when a fault
is recorded (`Bitcount.faults_dec`, …).
-/
import Mathlib.Data.Int.Basic
import Mathlib.Data.List.GetD
import Mathlib.Tactic.IntervalCases
import Neoip.Unit

namespace Neoip

/-- A `datum_t`: bytes in memory. -/
abbrev Datum := List UInt8

/-- The length of an identifier of null bytes. -/
theorem length_zeros : (List.replicate 20 (0 : UInt8)).length = 20 := rfl

theorem length_ones : (List.replicate 20 (1 : UInt8)).length = 20 := rfl

/-! ### `bitfield_t` -/

/-- `bitfield_t`. -/
abbrev Bitfield := List Bool

namespace Bitfield

def ofSize (nb_bit : ℕ) : Bitfield := List.replicate nb_bit false

def get (bf : Bitfield) (idx : ℕ) : Bool := bf.getD idx false

def set (bf : Bitfield) (idx : ℕ) (new_val : Bool := true) : Bitfield := List.set bf idx new_val

def clear (bf : Bitfield) (idx : ℕ) : Bitfield := set bf idx false

def isAllSet (bf : Bitfield) : Bool := bf.all id

def isAnySet (bf : Bitfield) : Bool := bf.any id

def fullyContain (bf other : Bitfield) : Bool :=
  (List.range other.length).all fun i => !(other.get i && !bf.get i)

def compl (bf : Bitfield) : Bitfield := bf.map (!·)

/-- `operator &`: the bits that `other` has and which are not set are cleared. -/
def and (bf other : Bitfield) : Bitfield := bf.mapIdx fun i b => b && other.getD i true

def xor (bf other : Bitfield) : Bitfield := bf.mapIdx fun i b => b ^^ other.get i

variable {bf other : Bitfield} {i idx : ℕ}

theorem get_of_le (h : bf.length ≤ idx) : bf.get idx = false :=
  List.getD_eq_default _ _ h

theorem lt_of_get (h : bf.get idx = true) : idx < bf.length := by
  by_contra hn
  rw [get_of_le (by omega)] at h
  cases h

@[simp] theorem length_ofSize (n : ℕ) : (ofSize n).length = n := List.length_replicate

@[simp] theorem get_ofSize (n idx : ℕ) : (ofSize n).get idx = false := by
  simp [get, ofSize, List.getD_eq_getElem?_getD, List.getElem?_replicate]
  split_ifs <;> rfl

@[simp] theorem length_set (v : Bool) : (bf.set idx v).length = bf.length := List.length_set

@[simp] theorem length_clear : (bf.clear idx).length = bf.length := List.length_set

@[simp] theorem length_compl : bf.compl.length = bf.length := List.length_map _

theorem get_set (v : Bool) : (bf.set idx v).get i =
    if i = idx ∧ idx < bf.length then v else bf.get i := by
  simp only [get, set, List.getD_eq_getElem?_getD, List.getElem?_set]
  split_ifs <;> simp_all

theorem get_clear : (bf.clear idx).get i = if i = idx then false else bf.get i := by
  rw [clear, get_set]
  split_ifs with h1 h2 h2
  · rfl
  · omega
  · rw [h2, get_of_le (by omega)]
  · rfl

theorem get_compl : bf.compl.get i = (decide (i < bf.length) && !bf.get i) := by
  simp only [get, compl, List.getD_eq_getElem?_getD, List.getElem?_map]
  by_cases h : i < bf.length
  · simp [h]
  · simp [h]

theorem get_and : (bf.and other).get i = (bf.get i && (other.get i || decide (other.length ≤ i))) := by
  simp only [get, and, List.getD_eq_getElem?_getD, List.getElem?_mapIdx]
  by_cases h : i < bf.length
  · by_cases h' : i < other.length
    · simp [h, h', Nat.not_le.2 h']
    · simp [h, h', Nat.le_of_not_lt h']
  · simp [h]

theorem get_xor : (bf.xor other).get i = (bf.get i ^^ (decide (i < bf.length) && other.get i)) := by
  simp only [get, xor, List.getD_eq_getElem?_getD, List.getElem?_mapIdx]
  by_cases h : i < bf.length <;> simp [h]

theorem isAnySet_iff : bf.isAnySet = true ↔ ∃ i, bf.get i = true := by
  simp only [isAnySet, List.any_eq_true, id_eq, exists_eq_right]
  constructor
  · intro h
    obtain ⟨i, hi, hget⟩ := List.getElem_of_mem h
    exact ⟨i, by simp [get, List.getD_eq_getElem?_getD, hi, hget]⟩
  · rintro ⟨i, hi⟩
    have hlt := lt_of_get hi
    rw [get, List.getD_eq_getElem _ _ hlt] at hi
    exact hi ▸ List.getElem_mem hlt

theorem isAnySet_and : (bf.and other).isAnySet = true ↔
    ∃ i, bf.get i = true ∧ (other.get i = true ∨ other.length ≤ i) := by
  simp only [isAnySet_iff, get_and, Bool.and_eq_true, Bool.or_eq_true, decide_eq_true_eq]

theorem isAnySet_and_compl : ¬ (bf.and bf.compl).isAnySet = true := by
  rw [isAnySet_and]
  rintro ⟨i, hi, hc⟩
  have hlt := lt_of_get hi
  rw [get_compl, length_compl, hi, Bool.not_true, Bool.and_false] at hc
  exact hc.elim nofun (Nat.not_le.2 hlt)

theorem isAnySet_eq_false_iff : bf.isAnySet = false ↔ ∀ i, bf.get i = false := by
  rw [← Bool.not_eq_true, isAnySet_iff, not_exists]
  simp only [Bool.not_eq_true]

/-- Two bitfields of one size with the same bits are equal. -/
theorem ext_get (hlen : bf.length = other.length) (h : ∀ i < bf.length, bf.get i = other.get i) :
    bf = other := by
  refine List.ext_getElem hlen fun i h₁ h₂ => ?_
  have := h i h₁
  rwa [get, get, List.getD_eq_getElem _ _ h₁, List.getD_eq_getElem _ _ h₂] at this

/-! ### Byte form -/

def toDatumSize (bf : Bitfield) : ℕ := ceilDiv bf.length 8

/-- A byte, its bits given from the highest one. -/
def packByte (bit : ℕ → Bool) : UInt8 :=
  (List.range 8).foldl (fun p i => if bit i then p ||| (0x80 >>> UInt8.ofNat i) else p) 0

def testByte (p : UInt8) (i : ℕ) : Bool := p &&& (0x80 >>> UInt8.ofNat i) != 0

def toDatum (bf : Bitfield) : Datum :=
  (List.range bf.toDatumSize).map fun k => packByte fun i => bf.get (8 * k + i)

/-- The bits of a datum, without a check of its size. -/
def bitsOfDatum (datum : Datum) (nb_bit : ℕ) : Bitfield :=
  (List.range nb_bit).map fun i => testByte (datum.getD (i / 8) 0) (i % 8)

/-- `bitfield_t::from_datum`: the null bitfield if the size is not the proper one. -/
def fromDatum (datum : Datum) (nb_bit : ℕ) : Bitfield :=
  if datum.length ≠ (ofSize nb_bit).toDatumSize then []
  else bitsOfDatum datum nb_bit

@[simp] theorem length_bitsOfDatum (datum : Datum) (n : ℕ) :
    (bitsOfDatum datum n).length = n := by
  simp [bitsOfDatum]

@[simp] theorem length_toDatum : bf.toDatum.length = bf.toDatumSize := by simp [toDatum]

theorem testByte_packByte_aux : ∀ b₀ b₁ b₂ b₃ b₄ b₅ b₆ b₇ : Bool, ∀ i : Fin 8,
    testByte (packByte fun j => [b₀, b₁, b₂, b₃, b₄, b₅, b₆, b₇].getD j false) i =
      [b₀, b₁, b₂, b₃, b₄, b₅, b₆, b₇].getD i false := by
  decide +kernel

theorem testByte_packByte (bit : ℕ → Bool) (hi : i < 8) : testByte (packByte bit) i = bit i := by
  have h := testByte_packByte_aux (bit 0) (bit 1) (bit 2) (bit 3) (bit 4) (bit 5) (bit 6) (bit 7)
    ⟨i, hi⟩
  have hbits : ∀ j < 8, [bit 0, bit 1, bit 2, bit 3, bit 4, bit 5, bit 6, bit 7].getD j false =
      bit j := by
    intro j hj
    interval_cases j <;> rfl
  have hpack : packByte (fun j => [bit 0, bit 1, bit 2, bit 3, bit 4, bit 5, bit 6, bit 7].getD j
      false) = packByte bit := by
    simp only [packByte]
    refine List.foldl_ext _ _ _ fun p j hj => ?_
    simp only [hbits j (List.mem_range.1 hj)]
  rw [hpack, hbits i hi] at h
  exact h

/-- **Round trip of the byte form.** -/
theorem fromDatum_toDatum (bf : Bitfield) : fromDatum bf.toDatum bf.length = bf := by
  have hsize : bf.toDatum.length = (ofSize bf.length).toDatumSize := by
    simp [toDatumSize]
  rw [fromDatum, if_neg (by simpa using hsize)]
  refine ext_get (length_bitsOfDatum _ _) fun i hi => ?_
  rw [length_bitsOfDatum] at hi
  have hk : i / 8 < bf.toDatumSize := by
    rw [toDatumSize, ceilDiv]
    omega
  have hget : (bitsOfDatum bf.toDatum bf.length).get i =
      testByte (bf.toDatum.getD (i / 8) 0) (i % 8) := by
    simp [get, bitsOfDatum, List.getD_eq_getElem?_getD, hi]
  have hbyte : bf.toDatum.getD (i / 8) 0 = packByte fun j => bf.get (8 * (i / 8) + j) := by
    simp [toDatum, List.getD_eq_getElem?_getD, hk]
  rw [hget, hbyte, testByte_packByte _ (Nat.mod_lt _ (by omega)), Nat.div_add_mod]

end Bitfield

/-! ### `bt_pieceavail_t` -/

/-- `bt_pieceavail_t` is a bitfield, with one bit for each piece. -/
abbrev Pieceavail := Bitfield

namespace Pieceavail

def nb_piece (pa : Pieceavail) : ℕ := List.length pa

def isAvail (pa : Pieceavail) (idx : ℕ) : Bool := Bitfield.get pa idx

def isUnavail (pa : Pieceavail) (idx : ℕ) : Bool := !isAvail pa idx

def isFullyAvail (pa : Pieceavail) : Bool := Bitfield.isAllSet pa

def markIsavail (pa : Pieceavail) (idx : ℕ) : Pieceavail := Bitfield.set pa idx

def markUnavail (pa : Pieceavail) (idx : ℕ) : Pieceavail := Bitfield.clear pa idx

/-- `btformat_from_pkt`: the head of the packet, none when it is too short.  What
follows the bitfield in the packet is ignored. -/
def btformatFromPkt (pkt : Datum) (nb_piece : ℕ) : Option Pieceavail :=
  if pkt.length < (Bitfield.ofSize nb_piece).toDatumSize then none
  else some (Bitfield.bitsOfDatum pkt nb_piece)

theorem btformatFromPkt_length {pkt : Datum} {n : ℕ} {pa : Pieceavail}
    (h : btformatFromPkt pkt n = some pa) : List.length pa = n := by
  unfold btformatFromPkt at h
  split_ifs at h
  rw [← Option.some.inj h]
  exact Bitfield.length_bitsOfDatum pkt n

theorem isAvail_markIsavail {pa : Pieceavail} {idx i : ℕ} (hidx : idx < pa.nb_piece) :
    (pa.markIsavail idx).isAvail i = if i = idx then true else pa.isAvail i := by
  rw [isAvail, markIsavail, Bitfield.get_set]
  simp only [show idx < List.length pa from hidx, and_true]
  rfl

theorem isAvail_markUnavail {pa : Pieceavail} {idx i : ℕ} :
    (pa.markUnavail idx).isAvail i = if i = idx then false else pa.isAvail i :=
  Bitfield.get_clear

end Pieceavail

/-! ### `bitcount_t` -/

/-- What goes wrong in a `bitcount_t`: an index out of its array, the decrement of
a zero counter, a bitfield of another size. -/
inductive CountFault
  | outOfRange (idx : ℕ)
  | zeroDec (idx : ℕ)
  | badSize (nb_bit : ℕ)
deriving DecidableEq, Repr

/-- `bitcount_t`, with the counts which could not be made. -/
structure Bitcount where
  count_arr : List ℤ
  faults : List CountFault
deriving DecidableEq, Repr

namespace Bitcount

def ofSize (nb_elem : ℕ) : Bitcount := ⟨List.replicate nb_elem 0, []⟩

def size (bc : Bitcount) : ℕ := bc.count_arr.length

def get (bc : Bitcount) (idx : ℕ) : ℤ := bc.count_arr.getD idx 0

/-- Record a fault when the assertion fails. -/
def check (bc : Bitcount) (ok : Bool) (fault : CountFault) : Bitcount :=
  if ok then bc else { bc with faults := bc.faults ++ [fault] }

def inc (bc : Bitcount) (idx : ℕ) : Bitcount :=
  let bc := bc.check (idx < bc.size) (.outOfRange idx)
  { bc with count_arr := bc.count_arr.modify idx (· + 1) }

def dec (bc : Bitcount) (idx : ℕ) : Bitcount :=
  let bc := bc.check (idx < bc.size) (.outOfRange idx)
  let bc := bc.check (!(idx < bc.size && bc.get idx == 0)) (.zeroDec idx)
  { bc with count_arr := bc.count_arr.modify idx (· - 1) }

/-- `bitcount_t::inc` of a whole bitfield. -/
def incField (bc : Bitcount) (bitfield : Bitfield) : Bitcount :=
  let bc := bc.check (bc.size == bitfield.length) (.badSize bitfield.length)
  { bc with count_arr := bc.count_arr.mapIdx fun idx n => if bitfield.get idx then n + 1 else n }

/-- `bitcount_t::dec` of a whole bitfield. -/
def decField (bc : Bitcount) (bitfield : Bitfield) : Bitcount :=
  let bc := bc.check (bc.size == bitfield.length) (.badSize bitfield.length)
  let zero := (List.range bc.size).filter fun idx => bitfield.get idx && bc.get idx == 0
  { count_arr := bc.count_arr.mapIdx fun idx n => if bitfield.get idx then n - 1 else n
    faults := bc.faults ++ zero.map .zeroDec }

variable {bc : Bitcount} {bitfield : Bitfield} {i idx : ℕ}

@[simp] theorem size_ofSize (n : ℕ) : (ofSize n).size = n := List.length_replicate

@[simp] theorem get_ofSize (n i : ℕ) : (ofSize n).get i = 0 := by
  simp [get, ofSize, List.getD_eq_getElem?_getD, List.getElem?_replicate]
  split_ifs <;> rfl

@[simp] theorem count_arr_check (ok : Bool) (fault : CountFault) :
    (bc.check ok fault).count_arr = bc.count_arr := by
  unfold check
  split_ifs <;> rfl

@[simp] theorem size_check (ok : Bool) (fault : CountFault) :
    (bc.check ok fault).size = bc.size := by
  rw [size, count_arr_check, size]

@[simp] theorem get_check (ok : Bool) (fault : CountFault) :
    (bc.check ok fault).get i = bc.get i := by
  rw [get, count_arr_check, get]

theorem faults_check (ok : Bool) (fault : CountFault) :
    (bc.check ok fault).faults = [] ↔ bc.faults = [] ∧ ok = true := by
  unfold check
  split_ifs with h <;> simp [h]

@[simp] theorem size_inc : (bc.inc idx).size = bc.size := by simp [inc, size]

@[simp] theorem size_dec : (bc.dec idx).size = bc.size := by simp [dec, size]

@[simp] theorem size_incField : (bc.incField bitfield).size = bc.size := by simp [incField, size]

@[simp] theorem size_decField : (bc.decField bitfield).size = bc.size := by simp [decField, size]

theorem get_modify {f : ℤ → ℤ} {l : List ℤ} (hidx : idx < l.length) :
    (l.modify idx f).getD i 0 = if i = idx then f (l.getD i 0) else l.getD i 0 := by
  simp only [List.getD_eq_getElem?_getD, List.getElem?_modify]
  split_ifs with h1 h2 h2
  · subst h1
    simp [hidx]
  · omega
  · omega
  · simp

theorem get_inc (hidx : idx < bc.size) :
    (bc.inc idx).get i = bc.get i + if i = idx then 1 else 0 := by
  simp only [inc, get, count_arr_check]
  rw [get_modify hidx]
  split_ifs <;> simp

theorem get_dec (hidx : idx < bc.size) :
    (bc.dec idx).get i = bc.get i - if i = idx then 1 else 0 := by
  simp only [dec, get, count_arr_check]
  rw [get_modify hidx]
  split_ifs <;> simp

theorem get_incField (hi : i < bc.size) :
    (bc.incField bitfield).get i = bc.get i + if bitfield.get i then 1 else 0 := by
  have hi' : i < bc.count_arr.length := hi
  simp only [incField, get, count_arr_check, List.getD_eq_getElem?_getD, List.getElem?_mapIdx,
    List.getElem?_eq_getElem hi', Option.map_some, Option.getD_some]
  split_ifs <;> simp

theorem get_decField (hi : i < bc.size) :
    (bc.decField bitfield).get i = bc.get i - if bitfield.get i then 1 else 0 := by
  have hi' : i < bc.count_arr.length := hi
  simp only [decField, get, count_arr_check, List.getD_eq_getElem?_getD, List.getElem?_mapIdx,
    List.getElem?_eq_getElem hi', Option.map_some, Option.getD_some]
  split_ifs <;> simp

theorem faults_inc : (bc.inc idx).faults = [] ↔ bc.faults = [] ∧ idx < bc.size := by
  simp [inc, faults_check]

theorem faults_dec : (bc.dec idx).faults = [] ↔
    bc.faults = [] ∧ idx < bc.size ∧ bc.get idx ≠ 0 := by
  simp only [dec, faults_check, size_check, get_check, decide_eq_true_eq, Bool.not_eq_true',
    Bool.and_eq_false_iff, decide_eq_false_iff_not, beq_eq_false_iff_ne, and_assoc]
  constructor
  · rintro ⟨hf, hlt, hz⟩
    exact ⟨hf, hlt, hz.resolve_left (by simpa using hlt)⟩
  · rintro ⟨hf, hlt, hz⟩
    exact ⟨hf, hlt, .inr hz⟩

theorem faults_incField : (bc.incField bitfield).faults = [] ↔
    bc.faults = [] ∧ bc.size = bitfield.length := by
  simp [incField, faults_check]

theorem faults_decField : (bc.decField bitfield).faults = [] ↔
    bc.faults = [] ∧ bc.size = bitfield.length ∧
      ∀ i < bc.size, bitfield.get i = true → bc.get i ≠ 0 := by
  simp [decField, faults_check, and_assoc]

end Bitcount

end Neoip
