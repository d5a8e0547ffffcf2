/-
Neoip/Slidwin.lean

The sliding window `slidwin_t`, whose index type is an unsigned integer (of 32 bits, unless
said otherwise).

The window keeps `win_size` values, those of the indices from `index_begin` on,
in a vector which is a rotating buffer: `win_offset` is where the value of
`index_begin` stands.  `set` makes the window slide when the index is past its
last one, and never makes it slide back.

What the window is for is said by `Holds w f`: it holds the total function `f`
from the indices to the values, of which it has forgotten what is below
`index_begin`.

Main result: `set` is the update of that function (`Holds.set`), however far the
window slides.
-/
import Mathlib.Data.BitVec
import Mathlib.Tactic.Common

namespace Neoip

/-- `slidwin_t`. -/
structure Slidwin (α : Type*) (bits : ℕ := 32) where
  index_begin : BitVec bits
  dfl_value : α
  win_size : ℕ
  /-- Where the value of `index_begin` stands in `window`. -/
  win_offset : BitVec bits
  window : List α
  deriving DecidableEq, Repr

namespace Slidwin

variable {α : Type*} {bits : ℕ}

def fill (value : α) (w : Slidwin α bits) : Slidwin α bits :=
  { w with window := List.replicate w.win_size value }

/-- The constructor. -/
def ctor (win_size : ℕ) (dfl_value : α) (index_begin : BitVec bits) : Slidwin α bits where
  index_begin := index_begin
  dfl_value := dfl_value
  win_size := win_size
  win_offset := 0
  window := List.replicate win_size dfl_value

/-- `get_index_first`. -/
def getIndexFirst (w : Slidwin α bits) : BitVec bits := w.index_begin

/-- `get_index_last`. -/
def getIndexLast (w : Slidwin α bits) : BitVec bits := w.index_begin + (BitVec.ofNat bits w.win_size - 1)

/-- `cpu_idx`. -/
def cpuIdx (w : Slidwin α bits) (index : BitVec bits) : ℕ :=
  (w.win_offset + (index - w.index_begin)).toNat % w.win_size

def exist (w : Slidwin α bits) (index : BitVec bits) : Bool :=
  if index < w.getIndexFirst then false
  else if w.getIndexLast < index then false
  else true

def get (w : Slidwin α bits) (index : BitVec bits) : α := w.window.getD (w.cpuIdx index) w.dfl_value

/-- `get_default`. -/
def getDefault (w : Slidwin α bits) (index : BitVec bits) (dfl_value : α) : α :=
  if w.exist index = false then dfl_value else w.get index

/-- `window[cpu_idx(index)] = value`. -/
def put (index : BitVec bits) (value : α) (w : Slidwin α bits) : Slidwin α bits :=
  { w with window := w.window.set (w.cpuIdx index) value }

/-- The loop of `slide_if_needed` which puts the default value for `n` indices, `index` first. -/
def clearLoop : ℕ → BitVec bits → Slidwin α bits → Slidwin α bits
  | 0, _, w => w
  | n + 1, index, w => clearLoop n (index + 1) (w.put index w.dfl_value)

/-- `slide_if_needed`. -/
def slideIfNeeded (dst_index : BitVec bits) (w : Slidwin α bits) : Slidwin α bits :=
  if dst_index ≤ w.getIndexLast then w
  else
    let new_index_begin := dst_index - (BitVec.ofNat bits w.win_size - 1)
    let slide_len := dst_index - w.getIndexLast
    if BitVec.ofNat bits w.win_size ≤ slide_len then
      -- the whole window is wiped out, and the offset stays where it is
      fill w.dfl_value { w with index_begin := new_index_begin }
    else
      { clearLoop (new_index_begin.toNat - w.index_begin.toNat) w.index_begin w with
        win_offset := BitVec.ofNat bits ((w.win_offset + slide_len).toNat % w.win_size)
        index_begin := new_index_begin }

def set (index : BitVec bits) (value : α) (w : Slidwin α bits) : Slidwin α bits :=
  (w.slideIfNeeded index).put index value

/-! ### Well formed windows -/

/-- The vector has its size, the offset is in it, and the indices of the window do not wrap. -/
structure WF (w : Slidwin α bits) : Prop where
  size_pos : 0 < w.win_size
  /-- The sum in `cpu_idx` does not wrap. -/
  offset_le : w.win_offset.toNat ≤ w.index_begin.toNat
  length_eq : w.window.length = w.win_size
  offset_lt : w.win_offset.toNat < w.win_size
  last_lt : w.index_begin.toNat + w.win_size ≤ 2 ^ bits

variable {w : Slidwin α bits} {f : BitVec bits → α} {i j : BitVec bits}

theorem WF.toNat_size_pred (h : w.WF) :
    (BitVec.ofNat bits w.win_size - 1).toNat = w.win_size - 1 := by
  have hpos := h.size_pos
  have hlast := h.last_lt
  have hsucc : BitVec.ofNat bits w.win_size = BitVec.ofNat bits (w.win_size - 1) + 1 := by
    rw [← Nat.sub_add_cancel hpos, BitVec.ofNat_add, Nat.add_sub_cancel]
    rfl
  rw [hsucc, add_sub_cancel_right, BitVec.toNat_ofNat, Nat.mod_eq_of_lt (by omega)]

theorem WF.toNat_getIndexLast (h : w.WF) :
    w.getIndexLast.toNat = w.index_begin.toNat + w.win_size - 1 := by
  have := h.size_pos
  have := h.last_lt
  rw [getIndexLast, BitVec.toNat_add, h.toNat_size_pred, Nat.mod_eq_of_lt (by omega)]
  omega

/-- A window which an index is past of is smaller than the range of the indices. -/
theorem WF.toNat_size (h : w.WF) (hi : w.getIndexLast < i) :
    (BitVec.ofNat bits w.win_size).toNat = w.win_size := by
  have hlast := h.toNat_getIndexLast
  have hlt := i.isLt
  have hi := BitVec.lt_def.1 hi
  rw [BitVec.toNat_ofNat, Nat.mod_eq_of_lt (by omega)]

/-- An index past the last one is in the part which the window has not forgotten. -/
theorem WF.index_begin_le_of_last_lt (h : w.WF) (hi : w.getIndexLast < i) : w.index_begin ≤ i := by
  have := h.toNat_getIndexLast
  have := BitVec.lt_def.1 hi
  have := h.size_pos
  exact BitVec.le_def.2 (by omega)

theorem WF.exist_iff (h : w.WF) :
    w.exist i = true ↔ w.index_begin.toNat ≤ i.toNat ∧
      i.toNat < w.index_begin.toNat + w.win_size := by
  have hlast := h.toNat_getIndexLast
  have := h.size_pos
  simp only [exist, getIndexFirst, BitVec.lt_def, hlast]
  split_ifs <;> simp <;> omega

theorem WF.cpuIdx_eq (h : w.WF) (hi : w.exist i = true) :
    w.cpuIdx i = (w.win_offset.toNat + (i.toNat - w.index_begin.toNat)) % w.win_size := by
  have hoff := h.offset_le
  have hlt := i.isLt
  rw [h.exist_iff] at hi
  have hsub : (i - w.index_begin).toNat = i.toNat - w.index_begin.toNat :=
    BitVec.toNat_sub_of_le (BitVec.le_def.2 hi.1)
  have hsum : w.win_offset.toNat + (i.toNat - w.index_begin.toNat) < 2 ^ bits := by omega
  rw [cpuIdx, BitVec.toNat_add, hsub, Nat.mod_eq_of_lt hsum]

theorem WF.cpuIdx_lt (h : w.WF) (i : BitVec bits) : w.cpuIdx i < w.window.length := by
  rw [h.length_eq]
  exact Nat.mod_lt _ h.size_pos

/-- Two indices of the window stand at two places. -/
theorem add_mod_inj {o a b n : ℕ} (ha : a < n) (hb : b < n) (h : (o + a) % n = (o + b) % n) :
    a = b := by
  have := Nat.ModEq.add_left_cancel' o (show o + a ≡ o + b [MOD n] from h)
  exact Nat.ModEq.eq_of_lt_of_lt this ha hb

theorem WF.cpuIdx_inj (h : w.WF) (hi : w.exist i = true) (hj : w.exist j = true)
    (heq : w.cpuIdx i = w.cpuIdx j) : i = j := by
  rw [h.cpuIdx_eq hi, h.cpuIdx_eq hj] at heq
  rw [h.exist_iff] at hi hj
  have := add_mod_inj (by omega) (by omega) heq
  apply BitVec.eq_of_toNat_eq
  omega

/-! ### What a window holds -/

/-- The window holds the function `f`, of which it has forgotten what is below `index_begin`. -/
structure Holds (w : Slidwin α bits) (f : BitVec bits → α) : Prop extends w.WF where
  value : ∀ i, w.index_begin ≤ i → w.getDefault i w.dfl_value = f i

theorem Holds.get_eq (h : w.Holds f) (hi : w.exist i = true) : w.get i = f i := by
  have hle : w.index_begin ≤ i := BitVec.le_def.2 (h.exist_iff.1 hi).1
  rw [← h.value i hle, getDefault, if_neg (by simp [hi])]

/-- Past its last index, what the window holds is the default value. -/
theorem Holds.eq_dfl (h : w.Holds f) (hi : w.getIndexLast < i) : f i = w.dfl_value := by
  have hnot : w.exist i = false := by
    rw [Bool.eq_false_iff, Ne, h.exist_iff]
    have := h.toNat_getIndexLast
    have := BitVec.lt_def.1 hi
    omega
  rw [← h.value i (h.index_begin_le_of_last_lt hi), getDefault, if_pos hnot]

/-- To hold `f` is to hold it inside the window, and the default value after it. -/
theorem holds_iff : w.Holds f ↔ w.WF ∧ (∀ i, w.exist i = true → w.get i = f i) ∧
    ∀ i, w.getIndexLast < i → f i = w.dfl_value := by
  constructor
  · intro h
    exact ⟨h.toWF, fun i hi => h.get_eq hi, fun i hi => h.eq_dfl hi⟩
  · rintro ⟨hwf, hin, hout⟩
    refine ⟨hwf, fun i hi => ?_⟩
    cases hex : w.exist i with
    | true => rw [getDefault, if_neg (by simp [hex]), hin i hex]
    | false =>
      have hlast : w.getIndexLast < i := by
        rw [BitVec.lt_def, hwf.toNat_getIndexLast]
        rw [Bool.eq_false_iff, Ne, hwf.exist_iff] at hex
        have := BitVec.le_def.1 hi
        have := hwf.size_pos
        omega
      rw [getDefault, if_pos hex, hout i hlast]

theorem wf_ctor {win_size : ℕ} (dfl_value : α) {index_begin : BitVec bits} (hpos : 0 < win_size)
    (hlast : index_begin.toNat + win_size ≤ 2 ^ bits) :
    (ctor win_size dfl_value index_begin).WF where
  size_pos := hpos
  offset_le := Nat.zero_le _
  length_eq := List.length_replicate
  offset_lt := hpos
  last_lt := hlast

/-- A vector which is full of the default value holds it everywhere. -/
theorem get_of_replicate (h : w.window = List.replicate w.win_size w.dfl_value) (i : BitVec bits) :
    w.get i = w.dfl_value := by
  rw [get, h, List.getD_eq_getElem?_getD, List.getElem?_replicate]
  split <;> rfl

theorem holds_ctor {win_size : ℕ} (dfl_value : α) {index_begin : BitVec bits} (hpos : 0 < win_size)
    (hlast : index_begin.toNat + win_size ≤ 2 ^ bits) :
    (ctor win_size dfl_value index_begin).Holds fun _ => dfl_value := by
  rw [holds_iff]
  exact ⟨wf_ctor dfl_value hpos hlast, fun i _ => get_of_replicate rfl i, fun _ _ => rfl⟩

/-! ### Writing in the window -/

@[simp] theorem index_begin_put (i : BitVec bits) (v : α) (w : Slidwin α bits) :
    (w.put i v).index_begin = w.index_begin := rfl

@[simp] theorem win_size_put (i : BitVec bits) (v : α) (w : Slidwin α bits) :
    (w.put i v).win_size = w.win_size := rfl

@[simp] theorem dfl_value_put (i : BitVec bits) (v : α) (w : Slidwin α bits) :
    (w.put i v).dfl_value = w.dfl_value := rfl

@[simp] theorem cpuIdx_put (i j : BitVec bits) (v : α) (w : Slidwin α bits) :
    (w.put i v).cpuIdx j = w.cpuIdx j := rfl

@[simp] theorem getIndexLast_put (i : BitVec bits) (v : α) (w : Slidwin α bits) :
    (w.put i v).getIndexLast = w.getIndexLast := rfl

theorem WF.put (h : w.WF) (i : BitVec bits) (v : α) : (w.put i v).WF where
  size_pos := h.size_pos
  offset_le := h.offset_le
  length_eq := by rw [Slidwin.put, List.length_set]; exact h.length_eq
  offset_lt := h.offset_lt
  last_lt := h.last_lt

theorem WF.get_put (h : w.WF) (i j : BitVec bits) (v : α) :
    (w.put i v).get j = if w.cpuIdx i = w.cpuIdx j then v else w.get j := by
  rw [get, cpuIdx_put, Slidwin.put]
  split_ifs with hij
  · rw [hij, List.getD_eq_getElem?_getD, List.getElem?_set_self (h.cpuIdx_lt j)]
    rfl
  · rw [get, List.getD_eq_getElem?_getD, List.getElem?_set_ne hij, List.getD_eq_getElem?_getD]

theorem Holds.put (h : w.Holds f) (hi : w.exist i = true) (v : α) :
    (w.put i v).Holds (Function.update f i v) := by
  rw [holds_iff]
  refine ⟨h.toWF.put i v, fun j hj => ?_, fun j hj => ?_⟩
  · rw [h.toWF.get_put]
    by_cases hij : j = i
    · rw [hij, if_pos rfl, Function.update_self]
    · rw [if_neg fun heq => hij (h.cpuIdx_inj hi hj heq).symm, Function.update_of_ne hij]
      exact h.get_eq hj
  · have hij : j ≠ i := by
      rintro rfl
      have := h.exist_iff.1 hi
      have := BitVec.lt_def.1 hj
      rw [getIndexLast_put, h.toNat_getIndexLast] at this
      omega
    rw [Function.update_of_ne hij]
    exact h.eq_dfl hj

/-! ### The slide -/

/-- What is below `index_begin` does not matter. -/
theorem Holds.congr {g : BitVec bits → α} (h : w.Holds f) (hfg : ∀ i, w.index_begin ≤ i → f i = g i) :
    w.Holds g :=
  ⟨h.toWF, fun i hi => by rw [h.value i hi, hfg i hi]⟩

@[simp] theorem win_size_clearLoop (n : ℕ) (i : BitVec bits) (w : Slidwin α bits) :
    (clearLoop n i w).win_size = w.win_size := by
  induction n generalizing i w with
  | zero => rfl
  | succ n ih => rw [clearLoop, ih, win_size_put]

@[simp] theorem dfl_value_clearLoop (n : ℕ) (i : BitVec bits) (w : Slidwin α bits) :
    (clearLoop n i w).dfl_value = w.dfl_value := by
  induction n generalizing i w with
  | zero => rfl
  | succ n ih => rw [clearLoop, ih, dfl_value_put]

@[simp] theorem dfl_value_set (i : BitVec bits) (v : α) (w : Slidwin α bits) :
    (w.set i v).dfl_value = w.dfl_value := by
  rw [set, dfl_value_put, slideIfNeeded]
  dsimp only
  split_ifs
  · rfl
  · rfl
  · exact dfl_value_clearLoop _ _ w

/-- The loop puts the default value for the indices it goes through. -/
theorem Holds.clearLoop {n : ℕ} (h : w.Holds f) (hb : w.index_begin ≤ i)
    (hn : i.toNat + n ≤ w.index_begin.toNat + w.win_size) :
    ∃ window, Slidwin.clearLoop n i w = { w with window := window } ∧
      ({ w with window := window } : Slidwin α bits).Holds
        fun j => if i.toNat ≤ j.toNat ∧ j.toNat < i.toNat + n then w.dfl_value else f j := by
  induction n generalizing i w f with
  | zero =>
    refine ⟨w.window, rfl, h.congr fun j _ => ?_⟩
    rw [if_neg (by omega)]
  | succ n ih =>
    have hex : w.exist i = true := h.exist_iff.2 ⟨BitVec.le_def.1 hb, by omega⟩
    by_cases hlt : n = 0
    · subst hlt
      refine ⟨(w.put i w.dfl_value).window, rfl, (h.put hex w.dfl_value).congr fun j _ => ?_⟩
      by_cases hij : j = i
      · rw [hij, Function.update_self, if_pos (by omega)]
      · have : j.toNat ≠ i.toNat := fun heq => hij (BitVec.eq_of_toNat_eq heq)
        rw [Function.update_of_ne hij, if_neg (by omega)]
    · -- there is a next index, so it does not wrap
      have hlast := h.last_lt
      have hsucc : (i + 1).toNat = i.toNat + 1 := by
        have hof : i + 1 = BitVec.ofNat bits (i.toNat + 1) := by
          rw [BitVec.ofNat_add, BitVec.ofNat_toNat, BitVec.setWidth_eq]
          rfl
        rw [hof, BitVec.toNat_ofNat, Nat.mod_eq_of_lt (by omega)]
      have hb' : w.index_begin ≤ i + 1 := by
        have := BitVec.le_def.1 hb
        exact BitVec.le_def.2 (by omega)
      obtain ⟨window, heq, hh⟩ := ih (w := w.put i w.dfl_value) (h.put hex w.dfl_value) hb'
        (by rw [hsucc, index_begin_put, win_size_put]; omega)
      refine ⟨window, heq, hh.congr fun j _ => ?_⟩
      simp only [hsucc, dfl_value_put]
      by_cases hij : j = i
      · rw [hij, Function.update_self, ite_self, if_pos (by omega)]
      · have : j.toNat ≠ i.toNat := fun heq => hij (BitVec.eq_of_toNat_eq heq)
        rw [Function.update_of_ne hij]
        apply if_congr _ rfl rfl
        omega

/-- The places stay where they are when the offset goes forward with the first index. -/
theorem add_mod_shift {o a m n : ℕ} (ham : m ≤ a) :
    ((o + m) % n + (a - m)) % n = (o + a) % n := by
  rw [Nat.mod_add_mod]
  congr 1
  omega

/-- The window slides over the indices whose value is the default one. -/
theorem Holds.shift {m : ℕ} {index_begin win_offset : BitVec bits} (h : w.Holds f)
    (hm : m ≤ w.win_size) (hlast : w.index_begin.toNat + m + w.win_size ≤ 2 ^ bits)
    (hdfl : ∀ j, w.index_begin ≤ j → j.toNat < w.index_begin.toNat + m → f j = w.dfl_value)
    (hbegin : index_begin.toNat = w.index_begin.toNat + m)
    (hoff : win_offset.toNat = (w.win_offset.toNat + m) % w.win_size) :
    ({ w with win_offset := win_offset, index_begin := index_begin } : Slidwin α bits).Holds f := by
  have hpos := h.size_pos
  have hwf : ({ w with win_offset := win_offset, index_begin := index_begin } : Slidwin α bits).WF :=
    { size_pos := hpos
      offset_le := by
        rw [hoff, hbegin]
        exact (Nat.mod_le _ _).trans (Nat.add_le_add_right h.offset_le m)
      length_eq := h.length_eq
      offset_lt := by rw [hoff]; exact Nat.mod_lt _ hpos
      last_lt := by rw [hbegin]; exact hlast }
  rw [holds_iff]
  refine ⟨hwf, fun j hj => ?_, fun j hj => ?_⟩
  · have hplace := hwf.cpuIdx_eq hj
    have hin := hwf.exist_iff.1 hj
    simp only [hbegin, hoff] at hplace hin
    rw [← Nat.sub_sub, add_mod_shift (by omega)] at hplace
    by_cases hold : j.toNat < w.index_begin.toNat + w.win_size
    · -- an index of the old window
      have hj' : w.exist j = true := h.exist_iff.2 ⟨by omega, hold⟩
      rw [← h.get_eq hj', get, get, hplace, h.cpuIdx_eq hj']
    · -- a new index: it stands where an index stood which has been forgotten
      have hfj : f j = w.dfl_value := by
        apply h.eq_dfl
        rw [BitVec.lt_def, h.toNat_getIndexLast]
        omega
      have hk : (BitVec.ofNat bits (j.toNat - w.win_size)).toNat = j.toNat - w.win_size := by
        rw [BitVec.toNat_ofNat, Nat.mod_eq_of_lt (by omega)]
      have hk' : w.exist (BitVec.ofNat bits (j.toNat - w.win_size)) = true :=
        h.exist_iff.2 ⟨by omega, by omega⟩
      have hfk := hdfl (BitVec.ofNat bits (j.toNat - w.win_size)) (BitVec.le_def.2 (by omega))
        (by omega)
      have hsame : w.win_offset.toNat + (j.toNat - w.index_begin.toNat) =
          w.win_offset.toNat + (j.toNat - w.win_size - w.index_begin.toNat) + w.win_size := by
        omega
      calc
        get _ j = w.get (BitVec.ofNat bits (j.toNat - w.win_size)) := by
          rw [get, get, hplace, h.cpuIdx_eq hk', hk, hsame, Nat.add_mod_right]
        _ = f j := by rw [h.get_eq hk', hfk, hfj]
  · apply h.eq_dfl
    rw [BitVec.lt_def, h.toNat_getIndexLast]
    rw [BitVec.lt_def, hwf.toNat_getIndexLast] at hj
    simp only [hbegin] at hj
    omega

/-- The window which is wiped out holds `f`, of which it has forgotten all but the default
values. -/
theorem Holds.wipe {index_begin : BitVec bits} (h : w.Holds f)
    (hlast : index_begin.toNat + w.win_size ≤ 2 ^ bits) (hlt : w.getIndexLast < index_begin) :
    (Slidwin.fill w.dfl_value { w with index_begin := index_begin }).Holds f := by
  have hlt := BitVec.lt_def.1 hlt
  have hbegin : w.index_begin.toNat ≤ index_begin.toNat := by
    rw [h.toNat_getIndexLast] at hlt
    have := h.size_pos
    omega
  rw [holds_iff]
  have hwf : (Slidwin.fill w.dfl_value { w with index_begin := index_begin }).WF :=
    { size_pos := h.size_pos
      offset_le := h.offset_le.trans hbegin
      length_eq := List.length_replicate
      offset_lt := h.offset_lt
      last_lt := hlast }
  refine ⟨hwf, fun j hj => ?_, fun j hj => ?_⟩
  · have hj' : index_begin.toNat ≤ j.toNat := (hwf.exist_iff.1 hj).1
    rw [get_of_replicate rfl j, h.eq_dfl (BitVec.lt_def.2 (by omega))]
    rfl
  · have hj' := BitVec.lt_def.1 hj
    rw [hwf.toNat_getIndexLast] at hj'
    have hj' : index_begin.toNat + w.win_size - 1 < j.toNat := hj'
    have := h.size_pos
    exact h.eq_dfl (BitVec.lt_def.2 (by omega))

/-- The first index after a slide to an index past the end, and the length of the slide. -/
theorem WF.toNat_slide (h : w.WF) (hi : w.getIndexLast < i) :
    (i - (BitVec.ofNat bits w.win_size - 1)).toNat = i.toNat + 1 - w.win_size ∧
      (i - w.getIndexLast).toNat = i.toNat + 1 - (w.index_begin.toNat + w.win_size) := by
  have hlast := h.toNat_getIndexLast
  have hpos := h.size_pos
  have hsize := h.toNat_size_pred
  have hi := BitVec.lt_def.1 hi
  have hle : BitVec.ofNat bits w.win_size - 1 ≤ i := by
    rw [BitVec.le_def, hsize]
    omega
  have hle' : w.getIndexLast ≤ i := BitVec.le_def.2 (by omega)
  constructor
  · rw [BitVec.toNat_sub_of_le hle, hsize]
    omega
  · rw [BitVec.toNat_sub_of_le hle', hlast]
    omega

/-- A slide by less than the size of the window: the loop, and then the shift. -/
theorem Holds.slidePart {m : ℕ} {index_begin win_offset : BitVec bits} (h : w.Holds f)
    (hm : m ≤ w.win_size) (hlast : w.index_begin.toNat + m + w.win_size ≤ 2 ^ bits)
    (hbegin : index_begin.toNat = w.index_begin.toNat + m)
    (hoff : win_offset.toNat = (w.win_offset.toNat + m) % w.win_size) :
    ({ Slidwin.clearLoop m w.index_begin w with
      win_offset := win_offset, index_begin := index_begin } : Slidwin α bits).Holds f := by
  obtain ⟨window, heq, hh⟩ := h.clearLoop (n := m) (BitVec.le_def.2 (Nat.le_refl _)) (by omega)
  rw [heq]
  have hshift := hh.shift hm hlast (fun j hj hj' => if_pos ⟨BitVec.le_def.1 hj, hj'⟩) hbegin hoff
  refine hshift.congr fun j hj => if_neg ?_
  have hj : index_begin.toNat ≤ j.toNat := BitVec.le_def.1 hj
  omega

/-- The slide keeps what the window holds, and ends the window at the index when the index was
past the end. -/
theorem Holds.slideIfNeeded (h : w.Holds f) (hi : w.index_begin ≤ i) :
    (w.slideIfNeeded i).Holds f ∧ (w.slideIfNeeded i).win_size = w.win_size ∧
      (w.slideIfNeeded i).index_begin.toNat =
        max w.index_begin.toNat (i.toNat + 1 - w.win_size) := by
  have hlast := h.toNat_getIndexLast
  have hpos := h.size_pos
  have hi32 := i.isLt
  have hi := BitVec.le_def.1 hi
  simp only [Slidwin.slideIfNeeded]
  split_ifs with hin hwipe
  · have hin := BitVec.le_def.1 hin
    exact ⟨h, rfl, by omega⟩
  all_goals
    obtain ⟨hbegin, hlen⟩ := h.toNat_slide (BitVec.not_le.1 hin)
    rw [BitVec.le_def, h.toNat_size (BitVec.not_le.1 hin)] at hwipe
    rw [BitVec.le_def, hlast] at hin
  · refine ⟨h.wipe (by omega) (BitVec.lt_def.2 (by omega)), rfl, ?_⟩
    exact hbegin.trans (by omega)
  · have hoff := h.offset_le
    have hsum : w.win_offset.toNat + (i - w.getIndexLast).toNat < 2 ^ bits := by omega
    have hmod : (w.win_offset.toNat + (i - w.getIndexLast).toNat) % w.win_size < 2 ^ bits :=
      lt_of_le_of_lt (Nat.mod_le _ _) hsum
    have hm : (i - (BitVec.ofNat bits w.win_size - 1)).toNat - w.index_begin.toNat =
        (i - w.getIndexLast).toNat := by omega
    rw [hm]
    refine ⟨h.slidePart (by omega) (by omega) (by omega) ?_, ?_, ?_⟩
    · rw [BitVec.toNat_ofNat, BitVec.toNat_add, Nat.mod_eq_of_lt hsum, Nat.mod_eq_of_lt hmod]
    · exact win_size_clearLoop _ _ w
    · exact hbegin.trans (by omega)

/-- **The window is a function**: `set` updates the function which the window holds, whether the
window slides by nothing, by a part of its size or by more. -/
theorem Holds.set (h : w.Holds f) (hi : w.index_begin ≤ i) (v : α) :
    (w.set i v).Holds (Function.update f i v) := by
  obtain ⟨hslide, hsize, hbegin⟩ := h.slideIfNeeded hi
  have hpos := h.size_pos
  have hi := BitVec.le_def.1 hi
  have hex : (w.slideIfNeeded i).exist i = true := by
    rw [hslide.exist_iff, hsize, hbegin]
    omega
  exact hslide.put hex v

theorem Holds.toNat_index_begin_set (h : w.Holds f) (hi : w.index_begin ≤ i) (v : α) :
    (w.set i v).index_begin.toNat = max w.index_begin.toNat (i.toNat + 1 - w.win_size) :=
  (h.slideIfNeeded hi).2.2

theorem Holds.win_size_set (h : w.Holds f) (hi : w.index_begin ≤ i) (v : α) :
    (w.set i v).win_size = w.win_size :=
  (h.slideIfNeeded hi).2.1

end Slidwin

end Neoip
