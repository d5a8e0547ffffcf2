/-
Neoip/SlidwinMap.lean

The sliding window `slidwin_t` as a map from the indices to the values.

The map is what the `set` operations say on their own: the first index, which each
of them moves forward to keep its index in the window (`firstAfter`), and the value
which was set last at an index (`lastSet`).  The operations of the window are taken
with what may end the program: an assertion which fails, and the size of the window
as a null divisor in `cpu_idx`.

Main result: a window which does not wrap is that map after every sequence of `set`
(`isMap_checkedSets`), as it holds the function which the sequence updates.
-/
import Neoip.Slidwin

namespace Neoip

namespace Slidwin

variable {α : Type*} {bits : ℕ}

/-! ### The map -/

/-- The first index after the operations, which keep their index in the window. -/
def firstAfter (win_size : ℕ) (first : ℕ) (sets : List (BitVec bits × α)) : ℕ :=
  sets.foldl (fun first set => max first (set.1.toNat + 1 - win_size)) first

/-- The index of each operation is at or after the first index it finds. -/
def AtOrAfter (win_size : ℕ) : ℕ → List (BitVec bits × α) → Prop
  | _, [] => True
  | first, set :: sets =>
    first ≤ set.1.toNat ∧ AtOrAfter win_size (max first (set.1.toNat + 1 - win_size)) sets

instance AtOrAfter.decidable (win_size : ℕ) :
    ∀ (first : ℕ) (sets : List (BitVec bits × α)), Decidable (AtOrAfter win_size first sets)
  | _, [] => inferInstanceAs (Decidable True)
  | first, set :: sets =>
    haveI := AtOrAfter.decidable win_size (max first (set.1.toNat + 1 - win_size)) sets
    inferInstanceAs (Decidable (first ≤ set.1.toNat ∧ _))

def lastSet (sets : List (BitVec bits × α)) (index : BitVec bits) : Option α :=
  (sets.reverse.find? fun set => set.1 = index).map Prod.snd

/-- An index is read as the value which was set last in the window, and as the default value out
of it. -/
def Reads (read : BitVec bits → Option α) (win_size : ℕ) (dfl_value : α) (first : ℕ)
    (value : BitVec bits → α) : Prop :=
  ∀ index, read index =
    some (if first ≤ index.toNat ∧ index.toNat < first + win_size then value index else dfl_value)

/-! ### The operations which end the program -/

/-- `set`, with the assertions of `slide_if_needed` and its own one. -/
def checkedSet (index : BitVec bits) (value : α) (w : Slidwin α bits) : Option (Slidwin α bits) :=
  if w.index_begin ≤ index then
    if (w.slideIfNeeded index).exist index && w.win_size != 0 then some (w.set index value)
    else none
  else none

def checkedGet (w : Slidwin α bits) (index : BitVec bits) : Option α :=
  if w.exist index && w.win_size != 0 then some (w.get index) else none

def checkedGetDefault (w : Slidwin α bits) (dfl_value : α) (index : BitVec bits) : Option α :=
  if w.exist index = false then some dfl_value else w.checkedGet index

def checkedSets (sets : List (BitVec bits × α)) (w : Slidwin α bits) : Option (Slidwin α bits) :=
  sets.foldlM (fun w set => w.checkedSet set.1 set.2) w

/-! ### A run of them -/

variable {w : Slidwin α bits} {f : BitVec bits → α} {sets : List (BitVec bits × α)}
  {index_begin : BitVec bits} {win_size : ℕ} {dfl_value : α}

/-- The function which the operations update has the values which were set last. -/
theorem foldl_update (f : BitVec bits → α) (sets : List (BitVec bits × α)) (index : BitVec bits) :
    sets.foldl (fun f set => Function.update f set.1 set.2) f index
      = (lastSet sets index).getD (f index) := by
  induction sets generalizing f with
  | nil => rfl
  | cons set sets ih =>
    rw [List.foldl_cons, ih, lastSet, lastSet, List.reverse_cons, List.find?_append]
    cases hlast : sets.reverse.find? fun set => set.1 = index with
    | some last => rfl
    | none =>
      by_cases hset : set.1 = index
      · rw [List.find?_singleton, if_pos (decide_eq_true hset), ← hset, Function.update_self]
        rfl
      · have hne : (decide (set.1 = index)) = false := decide_eq_false hset
        rw [List.find?_singleton, hne, Function.update_of_ne (Ne.symm hset)]
        rfl

/-- One operation: no assertion fails, and the function is updated. -/
theorem Holds.checkedSet (h : w.Holds f) {index : BitVec bits} (hi : w.index_begin ≤ index)
    (value : α) : w.checkedSet index value = some (w.set index value) := by
  have hpos := h.size_pos
  have hex : (w.slideIfNeeded index).exist index = true := by
    obtain ⟨hslide, hsize, hbegin⟩ := h.slideIfNeeded hi
    have hi := BitVec.le_def.1 hi
    rw [hslide.exist_iff, hsize, hbegin]
    omega
  rw [Slidwin.checkedSet, if_pos hi, hex, Bool.true_and, if_pos (bne_iff_ne.2 hpos.ne')]

/-- **A run**: by induction on the operations, the window holds the function which they update. -/
theorem Holds.checkedSets (h : w.Holds f)
    (hsets : AtOrAfter w.win_size w.index_begin.toNat sets) :
    ∃ w', w.checkedSets sets = some w' ∧
      w'.Holds (sets.foldl (fun f set => Function.update f set.1 set.2) f) ∧
      w'.win_size = w.win_size ∧
      w'.index_begin.toNat = firstAfter w.win_size w.index_begin.toNat sets := by
  induction sets generalizing w f with
  | nil => exact ⟨w, rfl, h, rfl, rfl⟩
  | cons set sets ih =>
    obtain ⟨hfirst, hsets⟩ := hsets
    have hi := BitVec.le_def.2 hfirst
    have hsize := h.win_size_set hi set.2
    have hbegin := h.toNat_index_begin_set hi set.2
    obtain ⟨w', hw', hholds, hsize', hbegin'⟩ :=
      ih (h.set hi set.2) (by rw [hsize, hbegin]; exact hsets)
    refine ⟨w', ?_, hholds, hsize'.trans hsize, ?_⟩
    · rw [Slidwin.checkedSets, List.foldlM_cons, h.checkedSet hi]
      exact hw'
    · rw [hbegin', hsize, hbegin]
      rfl

theorem Holds.checkedGet (h : w.Holds f) {index : BitVec bits} (hex : w.exist index = true) :
    w.checkedGet index = some (f index) := by
  rw [Slidwin.checkedGet, hex, Bool.true_and, if_pos (bne_iff_ne.2 h.size_pos.ne'), h.get_eq hex]

theorem Holds.checkedGetDefault (h : w.Holds f) (dfl_value : α) (index : BitVec bits) :
    w.checkedGetDefault dfl_value index =
      some (if w.index_begin.toNat ≤ index.toNat ∧
        index.toNat < w.index_begin.toNat + w.win_size then f index else dfl_value) := by
  rw [Slidwin.checkedGetDefault]
  by_cases hin : w.exist index = true
  · rw [hin, if_neg Bool.noConfusion, h.checkedGet hin, if_pos (h.exist_iff.1 hin)]
  · rw [if_pos (Bool.eq_false_iff.2 hin), if_neg (mt h.exist_iff.2 hin)]

/-! ### The window is the map -/

/-- `get` reads the map in the window, and `get_default` everywhere. -/
structure IsMap (w : Slidwin α bits) (win_size first : ℕ) (value : BitVec bits → α) : Prop where
  get : ∀ index, first ≤ index.toNat → index.toNat < first + win_size →
    w.checkedGet index = some (value index)
  get_default : ∀ dfl_value, Reads (w.checkedGetDefault dfl_value) win_size dfl_value first value

/-- **The map**: a window which does not wrap agrees with it, after every sequence of operations
at or after its first index. -/
theorem isMap_checkedSets (dfl_value : α) (hpos : 0 < win_size)
    (hlast : index_begin.toNat + win_size ≤ 2 ^ bits)
    (hsets : AtOrAfter win_size index_begin.toNat sets) :
    ∃ w, (ctor win_size dfl_value index_begin).checkedSets sets = some w ∧
      w.IsMap win_size (firstAfter win_size index_begin.toNat sets)
        fun index => (lastSet sets index).getD dfl_value := by
  obtain ⟨w, hw, hholds, hsize, hbegin⟩ :=
    Holds.checkedSets (holds_ctor dfl_value hpos hlast) hsets
  have hvalue : sets.foldl (fun f set => Function.update f set.1 set.2) (fun _ => dfl_value)
      = fun index => (lastSet sets index).getD dfl_value :=
    funext fun index => foldl_update _ sets index
  have hsize : w.win_size = win_size := hsize
  have hbegin : w.index_begin.toNat = firstAfter win_size index_begin.toNat sets := hbegin
  rw [hvalue] at hholds
  refine ⟨w, hw, fun index hle hlt => ?_, fun dfl_value index => ?_⟩
  · refine hholds.checkedGet (hholds.exist_iff.2 ?_)
    rw [hbegin, hsize]
    exact ⟨hle, hlt⟩
  · rw [hholds.checkedGetDefault, hbegin, hsize]

theorem isMap_checkedSets_three : ∃ w,
    (ctor 5 0 (0 : BitVec 32)).checkedSets [(7, 1), (8, 2), (100, 3)] = some w ∧
      w.IsMap 5 (firstAfter 5 0 [((7 : BitVec 32), 1), (8, 2), (100, 3)])
        fun index => (lastSet [((7 : BitVec 32), 1), (8, 2), (100, 3)] index).getD 0 :=
  isMap_checkedSets 0 (by decide) (by decide) (by decide)

/-- `get` itself reads the map, in the window and out of it. -/
def GetReads (win_size : ℕ) (dfl_value : α) (index_begin : BitVec bits)
    (sets : List (BitVec bits × α)) : Prop :=
  ∃ w, (ctor win_size dfl_value index_begin).checkedSets sets = some w ∧
    Reads w.checkedGet win_size dfl_value (firstAfter win_size index_begin.toNat sets)
      fun index => (lastSet sets index).getD dfl_value

/-- An index which the window has forgotten, a window of size 0, and one which wraps. -/
theorem not_getReads : ¬ GetReads 5 0 (0 : BitVec 32) [(7, 1)] ∧
    ¬ GetReads 0 0 (0 : BitVec 32) [(0, 1)] ∧ ¬ GetReads 8 0 (BitVec.allOnes 32) [] := by
  refine ⟨?_, ?_, ?_⟩
  · rintro ⟨w, hw, hreads⟩
    obtain rfl := Option.some.inj hw
    exact absurd (hreads 2) (by decide)
  · rintro ⟨w, hw, -⟩
    exact absurd hw (by simp [checkedSets, checkedSet, ctor, slideIfNeeded, exist])
  · rintro ⟨w, hw, hreads⟩
    obtain rfl := Option.some.inj hw
    exact absurd (hreads (BitVec.allOnes 32)) (by decide)

end Slidwin

end Neoip
