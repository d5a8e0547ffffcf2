/-
Neoip/Rotating.lean

Sliding windows: amounts by date, and the rotating array which holds them.

A journal is a list of amounts with their dates.  The part of it in an interval of
dates has a sum (`amountIn`), which is that of the two halves of the interval.  Cut
in slices of one length, the interval has one sum for each slice (`slices`).

A rotating array holds some consecutive values from an offset on, and goes on at
its begin where it ends (`contents`).  The first value is left out by moving the
offset, a new last value by writing one slot.

Main results: `sum_slices`, `contents_cons` and `contents_set`.
-/
import Mathlib.Algebra.BigOperators.Group.List.Basic
import Mathlib.Data.Nat.ModEq
import Mathlib.Tactic.Ring

namespace Neoip

/-! ### Amounts by date -/

/-- The sum of the amounts dated from `lo` to before `hi`. -/
def amountIn (journal : List (ℕ × ℕ)) (lo hi : ℕ) : ℕ :=
  ((journal.filter fun x => lo ≤ x.1 ∧ x.1 < hi).map Prod.snd).sum

/-- The sums of `n` slices of length `d`, the first of which begins at `lo`. -/
def slices (journal : List (ℕ × ℕ)) (d : ℕ) : ℕ → ℕ → List ℕ
  | _, 0 => []
  | lo, n + 1 => amountIn journal lo (lo + d) :: slices journal d (lo + d) n

variable {journal : List (ℕ × ℕ)} {lo mid hi d n : ℕ}

theorem amountIn_cons (x : ℕ × ℕ) : amountIn (x :: journal) lo hi
    = (if lo ≤ x.1 ∧ x.1 < hi then x.2 else 0) + amountIn journal lo hi := by
  rw [amountIn, amountIn, List.filter_cons]
  by_cases hx : lo ≤ x.1 ∧ x.1 < hi
  · rw [if_pos (decide_eq_true hx), if_pos hx, List.map_cons, List.sum_cons]
  · rw [if_neg (by rw [decide_eq_true_iff]; exact hx), if_neg hx, Nat.zero_add]

theorem amountIn_append (journal' : List (ℕ × ℕ)) :
    amountIn (journal ++ journal') lo hi = amountIn journal lo hi + amountIn journal' lo hi := by
  rw [amountIn, amountIn, amountIn, List.filter_append, List.map_append, List.sum_append]

theorem amountIn_add (h : lo ≤ mid) (h' : mid ≤ hi) :
    amountIn journal lo mid + amountIn journal mid hi = amountIn journal lo hi := by
  induction journal with
  | nil => rfl
  | cons x journal ih =>
    rw [amountIn_cons, amountIn_cons, amountIn_cons, ← ih]
    split_ifs <;> omega

theorem amountIn_eq_zero (h : ∀ x ∈ journal, x.1 < lo ∨ hi ≤ x.1) : amountIn journal lo hi = 0 := by
  induction journal with
  | nil => rfl
  | cons x journal ih =>
    rw [amountIn_cons, ih fun y hy => h y (List.mem_cons_of_mem _ hy), if_neg]
    have hx := h x List.mem_cons_self
    omega

/-- Past the last date, a later end changes nothing. -/
theorem amountIn_congr (h : ∀ x ∈ journal, x.1 < hi) (hle : hi ≤ mid) :
    amountIn journal lo mid = amountIn journal lo hi := by
  induction journal with
  | nil => rfl
  | cons x journal ih =>
    have hx := h x List.mem_cons_self
    rw [amountIn_cons, amountIn_cons, ih fun y hy => h y (List.mem_cons_of_mem _ hy)]
    split_ifs <;> omega

/-- The slices of an interval have its sum. -/
theorem sum_slices (lo : ℕ) :
    (slices journal d lo n).sum = amountIn journal lo (lo + n * d) := by
  induction n generalizing lo with
  | zero =>
    rw [slices, List.sum_nil]
    exact (amountIn_eq_zero fun x _ => by omega).symm
  | succ n ih =>
    rw [slices, List.sum_cons, ih, amountIn_add (Nat.le_add_right ..) (Nat.le_add_right ..)]
    congr 1
    ring

theorem slices_succ (lo : ℕ) : slices journal d lo (n + 1)
    = slices journal d lo n ++ [amountIn journal (lo + n * d) (lo + n * d + d)] := by
  induction n generalizing lo with
  | zero =>
    rw [slices, slices, slices, Nat.zero_mul, Nat.add_zero, List.nil_append]
  | succ n ih =>
    rw [slices, ih, slices, List.cons_append, show lo + d + n * d = lo + (n + 1) * d by ring]

/-- An amount of the last slice is added to it alone. -/
theorem slices_append_last {t a : ℕ} (hlo : lo + n * d ≤ t) (hhi : t < lo + n * d + d) :
    slices (journal ++ [(t, a)]) d lo (n + 1)
      = slices journal d lo n ++ [amountIn journal (lo + n * d) (lo + n * d + d) + a] := by
  have hlast : amountIn [(t, a)] (lo + n * d) (lo + n * d + d) = a := by
    rw [amountIn_cons, if_pos ⟨hlo, hhi⟩]
    rfl
  have hfirst : ∀ n lo, lo + n * d ≤ t →
      slices (journal ++ [(t, a)]) d lo n = slices journal d lo n := by
    intro n
    induction n with
    | zero => exact fun _ _ => rfl
    | succ n ih =>
      intro lo h
      have hmul : (n + 1) * d = n * d + d := by ring
      rw [slices, slices, ih (lo + d) (by omega), amountIn_append,
        @amountIn_eq_zero [(t, a)], Nat.add_zero]
      rintro x hx
      obtain rfl := List.mem_singleton.1 hx
      have hle : lo + d ≤ t := by omega
      exact Or.inr hle
  rw [slices_succ, hfirst n lo hlo, amountIn_append, hlast]

/-! ### Rotating arrays -/

variable {α : Type*} [Inhabited α] {arr : List α} {beg len : ℕ} {a : α}

/-- The `len` values from the offset `beg` on. -/
def contents (arr : List α) (beg len : ℕ) : List α :=
  (List.range len).map fun i => arr.getD ((beg + i) % arr.length) default

theorem contents_cons : contents arr beg (len + 1)
    = arr.getD (beg % arr.length) default :: contents arr ((beg + 1) % arr.length) len := by
  rw [contents, contents, List.range_succ_eq_map, List.map_cons, Nat.add_zero, List.map_map]
  congr 1
  apply List.map_congr_left
  intro i _
  show arr.getD ((beg + (i + 1)) % _) default = _
  rw [Nat.mod_add_mod, show beg + (i + 1) = beg + 1 + i by ring]

/-- Two values of the window are at different places. -/
theorem slot_injective {n i j : ℕ} (hi : i < n) (hj : j < n)
    (h : (beg + i) % n = (beg + j) % n) : i = j := by
  have hmod : i ≡ j [MOD n] := Nat.ModEq.add_left_cancel' beg h
  rw [Nat.ModEq, Nat.mod_eq_of_lt hi, Nat.mod_eq_of_lt hj] at hmod
  exact hmod

/-- The place after the window is written: the value is the new last one. -/
theorem contents_set (h : len < arr.length) :
    contents (arr.set ((beg + len) % arr.length) a) beg (len + 1)
      = contents arr beg len ++ [a] := by
  have hlt : (beg + len) % arr.length < arr.length := Nat.mod_lt _ (by omega)
  rw [contents, contents, List.range_succ, List.map_append, List.map_singleton, List.length_set]
  congr 1
  · apply List.map_congr_left
    intro i hi
    have hi' : i < len := List.mem_range.1 hi
    have hne : (beg + len) % arr.length ≠ (beg + i) % arr.length := by
      intro heq
      have hij := slot_injective h (by omega) heq
      omega
    rw [List.getD_eq_getElem?_getD, List.getD_eq_getElem?_getD, List.getElem?_set_ne hne]
  · rw [List.getD_eq_getElem?_getD, List.getElem?_set_self hlt]
    rfl

end Neoip
