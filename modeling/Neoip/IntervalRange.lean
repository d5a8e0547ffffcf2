/-
Neoip/IntervalRange.lean

`interval_t` over the full range of an unsigned type: the queries and the
comparison of the template, and the set semantics of all its operators.

`Unsigned m` has the values from `0` to `m`, and its arithmetic wraps.  An item
list over it is compared with the same list over the natural numbers
(`ItemDb.vals`), where `Interval` has the specifications.  The two sides differ
in `is_contiguous` only, whose `max_val + 1` is `0` for the largest value: an
item which ends at `m` is then contiguous to one which starts at `0`.

Main results: `ItemDb.subItem_vals` (the difference never wraps),
`ItemDb.addItem_cases` (when the union does), `ItemDb.eq_of_toSet_eq` (a set has
one sane list), `ItemDb.setSemantics_iff`.
-/
import Mathlib.Data.Fin.Basic
import Mathlib.Data.Set.Card
import Mathlib.Order.Interval.Finset.Fin
import Mathlib.Order.CompletePartialOrder
import Neoip.Interval

namespace Neoip

/-- An unsigned integer type whose largest value is `m`. -/
abbrev Unsigned (m : ℕ) := Fin (m + 1)

/-! ### Queries and comparison -/

namespace ItemDb

variable {T : Type*} [LinearOrder T] [Add T] [Sub T] [One T]

/-- `interval_t::is_distinct` of an item. -/
def isDistinctItem (item : IntervalItem T) : ItemDb T → Bool
  | [] => true
  | iter :: rest =>
    if iter.min_val > item.max_val then true
    else if !iter.isDistinct item then false
    else isDistinctItem item rest

/-- `interval_t::is_distinct` of an interval. -/
def isDistinct (db other : ItemDb T) : Bool := other.all fun item => isDistinctItem item db

/-- `interval_t::fully_include` of an item. -/
def fullyIncludeItem (item : IntervalItem T) : ItemDb T → Bool
  | [] => false
  | iter :: rest =>
    if iter.min_val > item.max_val then false
    else if iter.fullyInclude item then true
    else fullyIncludeItem item rest

/-- `interval_t::fully_include` of an interval. -/
def fullyInclude (db other : ItemDb T) : Bool := other.all fun item => fullyIncludeItem item db

def contain (db : ItemDb T) (element : T) : Bool := fullyIncludeItem ⟨element, element⟩ db

/-- `interval_t::total_length`, and `sum`. -/
def totalLength [Zero T] (db : ItemDb T) : T :=
  db.foldl (fun total item => total + item.length) 0

/-- The loop of `interval_t::compare`, for two lists of the same size. -/
def compareItems : ItemDb T → ItemDb T → Ordering
  | item1 :: rest1, item2 :: rest2 =>
    if item1 = item2 then compareItems rest1 rest2
    else if item1.min_val < item2.min_val then .lt
    else if item1.min_val > item2.min_val then .gt
    else if item1.max_val < item2.max_val then .lt
    else if item1.max_val > item2.max_val then .gt
    else compareItems rest1 rest2
  | _, _ => .eq

/-- `interval_t::compare`: negative, positive or `0`. -/
def compare (db other : ItemDb T) : Ordering :=
  if db.length < other.length then .lt
  else if db.length > other.length then .gt
  else compareItems db other

/-- `operator ==`. -/
def beq (db other : ItemDb T) : Bool := compare db other = .eq

/-- The set an item list denotes, as a set. -/
def toSet (db : ItemDb T) : Set T := {x | Mem x db}

end ItemDb

/-- The set an item denotes. -/
def IntervalItem.toSet {T : Type*} [LinearOrder T] (it : IntervalItem T) : Set T :=
  Set.Icc it.min_val it.max_val

/-! ### The same items over the natural numbers -/

section Vals

variable {m : ℕ}

/-- The item with the same bounds. -/
def IntervalItem.val (it : IntervalItem (Unsigned m)) : IntervalItem ℕ :=
  ⟨it.min_val, it.max_val⟩

namespace IntervalItem

variable {it base : IntervalItem (Unsigned m)}

@[simp] theorem min_val_val : it.val.min_val = it.min_val := rfl

@[simp] theorem max_val_val : it.val.max_val = it.max_val := rfl

theorem val_injective : Function.Injective (val : IntervalItem (Unsigned m) → IntervalItem ℕ) := by
  rintro ⟨a, b⟩ ⟨c, d⟩ h
  simp only [val, mk.injEq, Fin.val_inj] at h
  rw [h.1, h.2]

/-- `a + 1` is `b` when it is the next value, or when it wraps to `0`. -/
theorem add_one_eq_iff {a b : Unsigned m} :
    a + 1 = b ↔ (a : ℕ) + 1 = b ∨ (a = Fin.last m ∧ b = 0) := by
  rw [← Fin.val_inj, Fin.val_add_one]
  have hb := b.isLt
  split_ifs with h
  · simp only [h, true_and, Fin.val_last, ← Fin.val_inj (b := 0), Fin.val_zero]
    omega
  · simp only [h, false_and, or_false]

/-- **The wrap of `is_contiguous`**: the largest value and `0` are contiguous. -/
theorem isContiguous_val : base.isContiguous it = true ↔
    base.val.isContiguous it.val = true ∨ (base.max_val = Fin.last m ∧ it.min_val = 0) ∨
      (base.min_val = 0 ∧ it.max_val = Fin.last m) := by
  have hfin : base.isContiguous it = true ↔
      base.max_val + 1 = it.min_val ∨ it.max_val + 1 = base.min_val := by
    simp [isContiguous, eq_comm (a := base.min_val)]
  rw [hfin, ItemDb.isContiguous_iff, add_one_eq_iff, add_one_eq_iff, min_val_val, max_val_val,
    min_val_val, max_val_val]
  tauto

@[simp] theorem val_unify : (base.unify it).val = base.val.unify it.val := by
  simp only [val, unify, mk.injEq, gt_iff_lt, Fin.val_fin_lt]
  constructor <;> split_ifs <;> rfl

end IntervalItem

namespace ItemDb

/-- The list with the same bounds. -/
def vals (db : ItemDb (Unsigned m)) : ItemDb ℕ := db.map IntervalItem.val

variable {db : ItemDb (Unsigned m)} {base it : IntervalItem (Unsigned m)} {x : Unsigned m}

@[simp] theorem vals_nil : vals ([] : ItemDb (Unsigned m)) = [] := rfl

@[simp] theorem vals_cons : vals (it :: db) = it.val :: vals db := rfl

theorem vals_append {db' : ItemDb (Unsigned m)} : vals (db ++ db') = vals db ++ vals db' :=
  List.map_append

theorem mem_vals : Mem (x : ℕ) (vals db) ↔ Mem x db := by
  constructor
  · rintro ⟨_, hit, hx⟩
    obtain ⟨it, hmem, rfl⟩ := List.mem_map.1 hit
    exact ⟨it, hmem, hx⟩
  · rintro ⟨it, hit, hx⟩
    exact ⟨it.val, List.mem_map_of_mem hit, hx⟩

/-- The check of `is_sane` never wraps: the previous item ends before another one. -/
theorem isSane_vals : IsSane (vals db) ↔ IsSane db := by
  induction db with
  | nil => exact Iff.rfl
  | cons prev rest ih =>
    cases rest with
    | nil => exact Iff.rfl
    | cons cur rest =>
      rw [vals_cons, vals_cons, IsSane, IsSane, ← vals_cons, ih, IntervalItem.min_val_val,
        IntervalItem.max_val_val, IntervalItem.min_val_val, Fin.val_fin_le, Fin.val_fin_lt]
      refine and_congr_right fun _ => and_congr_right fun hlt => and_congr_left fun _ => ?_
      rw [Fin.lt_def, Fin.val_add_one_of_lt (lt_of_lt_of_le hlt (Fin.le_last _))]

theorem ne_zero_of_lt_val {n : ℕ} (h : n < x) : x ≠ 0 := by
  rintro rfl
  exact absurd h (Nat.not_lt_zero _)

/-- `ItemDb.isSane_cons`, with the next value taken in the natural numbers. -/
theorem isSane_cons_unsigned : IsSane (it :: db) ↔
    it.min_val ≤ it.max_val ∧ (∀ b ∈ db, (it.max_val : ℕ) + 1 < b.min_val) ∧ IsSane db := by
  rw [← isSane_vals, vals_cons, isSane_cons, isSane_vals, IntervalItem.min_val_val,
    IntervalItem.max_val_val, Fin.val_fin_le]
  refine and_congr_right fun _ => and_congr_left fun _ => ?_
  simp only [vals, List.forall_mem_map, IntervalItem.min_val_val]

theorem IsSane.le_unsigned (h : IsSane db) (hit : it ∈ db) : it.min_val ≤ it.max_val :=
  (isSane_vals.2 h).le (List.mem_map_of_mem hit)

theorem mem_toSet : x ∈ toSet db ↔ Mem x db := Iff.rfl

theorem toSet_nil : toSet ([] : ItemDb (Unsigned m)) = ∅ := by
  ext x
  simp [mem_toSet, Mem]

theorem toSet_cons : toSet (it :: db) = it.toSet ∪ toSet db := by
  ext x
  simp [mem_toSet, Mem, IntervalItem.toSet]

/-- A sane list has nothing below its first item. -/
theorem lt_of_mem_toSet {n : ℕ} (hall : ∀ b ∈ db, n < b.min_val) (hx : x ∈ toSet db) :
    n < x := by
  obtain ⟨b, hb, hle, -⟩ := hx
  exact lt_of_lt_of_le (hall b hb) hle

/-! ### The difference -/

section Difference

theorem cut_vals : vals (cut base it) = cut base.val it.val := by
  have hpred : it.min_val < base.min_val → ((base.min_val - 1 : Unsigned m) : ℕ) = base.min_val - 1 :=
    fun h => Fin.val_sub_one_of_ne_zero (Fin.ne_zero_of_lt h)
  have hsucc : base.max_val < it.max_val → ((base.max_val + 1 : Unsigned m) : ℕ) = base.max_val + 1 :=
    fun h => Fin.val_add_one_of_lt (lt_of_lt_of_le h (Fin.le_last _))
  unfold cut
  simp only [vals_append, IntervalItem.min_val_val, IntervalItem.max_val_val, Fin.val_fin_lt]
  congr 1
  · split_ifs with h
    · simp only [vals_cons, vals_nil, IntervalItem.val, hpred h]
    · rfl
  · split_ifs with h
    · simp only [vals_cons, vals_nil, IntervalItem.val, hsucc h]
    · rfl

theorem exclude_vals : vals (exclude base db) = exclude base.val (vals db) := by
  induction db with
  | nil => rfl
  | cons temp rest ih =>
    rw [vals_cons, exclude, exclude]
    simp only [ge_iff_le, IntervalItem.min_val_val, IntervalItem.max_val_val, Fin.val_fin_le]
    split_ifs
    · rw [vals_append, cut_vals, ih]
    · rfl

/-- **The difference never wraps.** -/
theorem subItem_vals : vals (subItem base db) = subItem base.val (vals db) := by
  induction db with
  | nil => rfl
  | cons iter rest ih =>
    rw [vals_cons, subItem, subItem]
    simp only [gt_iff_lt, IntervalItem.min_val_val, IntervalItem.max_val_val, Fin.val_fin_lt]
    split_ifs
    · rw [vals_cons, ih]
    · exact exclude_vals

end Difference

/-! ### The union -/

section Union

/-- The values missing from `A` once `base` is added to it are one run, above `base`, between
`0` and the largest value: the last item of `A` is next to the wrap. -/
structure LowGap (base : IntervalItem (Unsigned m)) (A : Set (Unsigned m)) : Prop where
  zero : 0 ∈ A ∪ base.toSet
  last : Fin.last m ∈ A ∪ base.toSet
  gap : ∃ x, x ∉ A ∪ base.toSet
  above : ∀ x, x ∉ A ∪ base.toSet → base.max_val < x
  one : ∀ x y z, x ∉ A ∪ base.toSet → y ∉ A ∪ base.toSet → x ≤ z → z ≤ y → z ∉ A ∪ base.toSet

/-- `base` ends at the largest value, `A` has `0`, and a value before `base` is missing. -/
structure HighGap (base : IntervalItem (Unsigned m)) (A : Set (Unsigned m)) : Prop where
  zero : 0 ∈ A
  last : base.max_val = Fin.last m
  gap : ∃ x < base.min_val, x ∉ A

/-- Adding `base` to `A` takes the largest value and `0` for neighbours. -/
def WrapsAround (base : IntervalItem (Unsigned m)) (A : Set (Unsigned m)) : Prop :=
  LowGap base A ∨ HighGap base A

theorem min_val_unify :
    ((base.unify it).min_val : ℕ) = min (base.min_val : ℕ) it.min_val := by
  rw [← IntervalItem.min_val_val, IntervalItem.val_unify, unify_min]
  rfl

theorem max_val_unify :
    ((base.unify it).max_val : ℕ) = max (base.max_val : ℕ) it.max_val := by
  rw [← IntervalItem.max_val_val, IntervalItem.val_unify, unify_max]
  rfl

/-- Two items which touch are unified into their union. -/
theorem toSet_unify (hlo : (base.min_val : ℕ) ≤ it.max_val + 1)
    (hhi : (it.min_val : ℕ) ≤ base.max_val + 1) :
    (base.unify it).toSet = base.toSet ∪ it.toSet := by
  ext x
  simp only [IntervalItem.toSet, Set.mem_union, Set.mem_Icc, Fin.le_def]
  rw [min_val_unify, max_val_unify]
  omega

/-- A gap is left as it is when an item which touches `base` is unified into it. -/
theorem lowGap_unify (hlo : (base.min_val : ℕ) ≤ it.max_val + 1)
    (hhi : (it.min_val : ℕ) ≤ base.max_val + 1) :
    LowGap (base.unify it) (toSet db) ↔ LowGap base (toSet (it :: db)) := by
  have hU : toSet (it :: db) ∪ base.toSet = toSet db ∪ (base.unify it).toSet := by
    rw [toSet_cons, toSet_unify hlo hhi, Set.union_comm it.toSet, Set.union_assoc,
      Set.union_comm it.toSet]
  constructor
  · rintro ⟨hzero, hlast, hgap, habove, hone⟩
    rw [← hU] at hzero hlast hgap habove hone
    refine ⟨hzero, hlast, hgap, fun x hx => ?_, hone⟩
    have := Fin.lt_def.1 (habove x hx)
    rw [max_val_unify] at this
    exact Fin.lt_def.2 (by omega)
  · rintro ⟨hzero, hlast, hgap, habove, hone⟩
    rw [hU] at hzero hlast hgap habove hone
    refine ⟨hzero, hlast, hgap, fun x hx => ?_, hone⟩
    have hlt := Fin.lt_def.1 (habove x hx)
    -- `x` is not in `it`, which starts below it
    have hnot : x ∉ it.toSet := by
      intro hxit
      apply hx
      rw [← hU, toSet_cons]
      exact .inl (.inl hxit)
    simp only [IntervalItem.toSet, Set.mem_Icc, Fin.le_def] at hnot
    rw [Fin.lt_def, max_val_unify]
    omega

theorem touch_iff {base it : IntervalItem ℕ} (hbase : base.min_val ≤ base.max_val)
    (hit : it.min_val ≤ it.max_val) :
    (base.max_val ≥ it.min_val || base.isContiguous it) = true ↔
      it.min_val ≤ base.max_val + 1 := by
  rw [Bool.or_eq_true, decide_eq_true_eq, isContiguous_iff]
  omega

/-- Where the second pass goes on: to the items which touch, and across the wrap. -/
theorem touch_unsigned_iff (hbase : base.min_val ≤ base.max_val) (hit : it.min_val ≤ it.max_val) :
    (base.max_val ≥ it.min_val || base.isContiguous it) = true ↔
      (it.min_val : ℕ) ≤ base.max_val + 1 ∨ (base.min_val = 0 ∧ it.max_val = Fin.last m) := by
  have htouch := @touch_iff base.val it.val hbase hit
  rw [Bool.or_eq_true, decide_eq_true_eq] at htouch ⊢
  rw [IntervalItem.isContiguous_val, ← or_assoc, ge_iff_le, Fin.le_def]
  constructor
  · rintro (h | ⟨-, h⟩ | h)
    · exact .inl (htouch.1 h)
    · left
      rw [h]
      exact Nat.zero_le _
    · exact .inr h
  · rintro (h | h)
    · exact .inl (htouch.2 h)
    · exact .inr (.inr h)

/-- Across the wrap: `it` ends at the largest value, above the gap which follows `base`. -/
theorem lowGap_of_wrap (hbase : base.min_val = 0) (hit : it.max_val = Fin.last m)
    (hhi : (base.max_val : ℕ) + 1 < it.min_val) : LowGap base (toSet [it]) := by
  have hmem : ∀ x, x ∈ toSet [it] ∪ base.toSet ↔ it.min_val ≤ x ∨ x ≤ base.max_val := by
    intro x
    simp only [toSet_cons, toSet_nil, Set.union_empty, Set.mem_union, IntervalItem.toSet,
      Set.mem_Icc, hit, hbase, Fin.le_last, Fin.zero_le, and_true, true_and]
  refine ⟨(hmem _).2 (.inr (Fin.zero_le _)), (hmem _).2 (.inl (Fin.le_last _)), ?_, ?_, ?_⟩
  · refine ⟨⟨base.max_val + 1, hhi.trans it.min_val.isLt⟩, ?_⟩
    rw [hmem, not_or, not_le, not_le, Fin.lt_def, Fin.lt_def]
    exact ⟨hhi, Nat.lt_succ_self _⟩
  · intro x hx
    rw [hmem, not_or, not_le, not_le] at hx
    exact hx.2
  · intro x y z hx hy hxz hzy
    rw [hmem, not_or, not_le, not_le] at hx hy ⊢
    exact ⟨lt_of_le_of_lt hzy hy.1, lt_of_lt_of_le hx.2 hxz⟩

/-- Without a wrap there is no such gap: the values after `base` are missing, and so are
those after `it`, if it does not end at the largest value. -/
theorem not_lowGap (h : IsSane (it :: db)) (hhi : (base.max_val : ℕ) + 1 < it.min_val)
    (hwrap : ¬ (base.min_val = 0 ∧ it.max_val = Fin.last m)) :
    ¬ LowGap base (toSet (it :: db)) := by
  intro hgap
  obtain ⟨hit, hall, hdb⟩ := isSane_cons_unsigned.1 h
  rw [Fin.le_def] at hit
  have hmem : ∀ x, x ∈ toSet (it :: db) ∪ base.toSet → x ∈ base.toSet ∨ x ∈ it.toSet ∨
      (it.max_val : ℕ) + 1 < x := by
    intro x hx
    rw [toSet_cons] at hx
    rcases hx with (hx | hx) | hx
    · exact .inr (.inl hx)
    · exact .inr (.inr (lt_of_mem_toSet hall hx))
    · exact .inl hx
  simp only [IntervalItem.toSet, Set.mem_Icc, Fin.le_def] at hmem
  -- `0` is in `base`, so the largest value is not in `it`
  have hzero : (base.min_val : ℕ) = 0 := by
    have := hmem 0 hgap.zero
    rw [Fin.val_zero] at this
    omega
  have hlast : (it.max_val : ℕ) + 1 < m := by
    have hne : (it.max_val : ℕ) ≠ m := by
      intro heq
      apply hwrap
      refine ⟨Fin.val_eq_zero_iff.1 hzero, Fin.ext ?_⟩
      rw [heq, Fin.val_last]
    have := hmem (Fin.last m) hgap.last
    rw [Fin.val_last] at this
    have := it.max_val.isLt
    omega
  -- the value after `base` and the one after `it` are missing, `it` is in between
  refine hgap.one ⟨base.max_val + 1, by omega⟩ ⟨it.max_val + 1, by omega⟩ it.min_val ?_ ?_
    (Fin.le_def.2 hhi.le) (Fin.le_def.2 (by simp only []; omega)) ?_
  · intro hx
    have := hmem _ hx
    simp only [] at this
    omega
  · intro hx
    have := hmem _ hx
    simp only [] at this
    omega
  · rw [toSet_cons]
    exact .inl (.inl ⟨le_refl _, Fin.le_def.2 hit⟩)

/-- The second and third pass: over a gap the item runs into the last one and takes the
whole range, and else it is as over the natural numbers. -/
theorem absorb_cases (h : IsSane db) (hbase : base.min_val ≤ base.max_val)
    (hfirst : ∀ b ∈ db, (base.min_val : ℕ) ≤ b.max_val + 1) :
    (LowGap base (toSet db) → absorb base db = [⟨0, Fin.last m⟩]) ∧
      (¬ LowGap base (toSet db) → vals (absorb base db) = absorb base.val (vals db)) := by
  induction db generalizing base with
  | nil =>
    refine ⟨fun hgap => ?_, fun _ => rfl⟩
    -- the only item ends at the largest value: nothing is missing above it
    obtain ⟨x, hx⟩ := hgap.gap
    have hlast := hgap.last
    rw [toSet_nil, Set.empty_union] at hlast
    exact absurd (hgap.above x hx) (not_lt.2 ((Fin.le_last x).trans hlast.2))
  | cons iter rest ih =>
    obtain ⟨hiter, hall, hrest⟩ := isSane_cons_unsigned.1 h
    have hlo := hfirst iter List.mem_cons_self
    rw [vals_cons, absorb, absorb]
    by_cases hhi : (iter.min_val : ℕ) ≤ base.max_val + 1
    · -- `iter` touches `base`, on both sides
      have htouch : (base.max_val ≥ iter.min_val || base.isContiguous iter) = true :=
        (touch_unsigned_iff hbase hiter).2 (.inl hhi)
      have htouch' :
          (base.val.max_val ≥ iter.val.min_val || base.val.isContiguous iter.val) = true :=
        (touch_iff hbase hiter).2 hhi
      rw [if_pos htouch, if_pos htouch', ← IntervalItem.val_unify, ← lowGap_unify hlo hhi]
      apply ih hrest
      · rw [Fin.le_def, min_val_unify, max_val_unify]
        have := Fin.le_def.1 hbase
        omega
      · intro b hb
        have := hfirst b (List.mem_cons_of_mem _ hb)
        rw [min_val_unify]
        omega
    · rw [not_le] at hhi
      have hno' :
          ¬ (base.val.max_val ≥ iter.val.min_val || base.val.isContiguous iter.val) = true :=
        fun htouch => not_lt.2 ((touch_iff hbase hiter).1 htouch) hhi
      rw [if_neg hno']
      by_cases hwrap : base.min_val = 0 ∧ iter.max_val = Fin.last m
      · -- `iter` is the last item
        have hnil : rest = [] := by
          rw [List.eq_nil_iff_forall_not_mem]
          intro b hb
          have := hall b hb
          rw [hwrap.2, Fin.val_last] at this
          have := b.min_val.isLt
          omega
        rw [hnil, if_pos ((touch_unsigned_iff hbase hiter).2 (.inr hwrap))]
        refine ⟨fun _ => ?_, fun hno => absurd (lowGap_of_wrap hwrap.1 hwrap.2 hhi) hno⟩
        rw [absorb, List.cons.injEq, and_iff_left rfl, ← IntervalItem.val_injective.eq_iff]
        show IntervalItem.mk _ _ = IntervalItem.mk _ _
        rw [min_val_unify, max_val_unify, hwrap.1, hwrap.2]
        simp [Fin.val_last, Nat.le_of_lt_succ base.max_val.isLt]
      · have hno : ¬ (base.max_val ≥ iter.min_val || base.isContiguous iter) = true := by
          intro htouch
          rcases (touch_unsigned_iff hbase hiter).1 htouch with htouch | htouch
          · exact absurd hhi (not_lt.2 htouch)
          · exact hwrap htouch
        rw [if_neg hno]
        exact ⟨fun hgap => absurd hgap (not_lowGap h hhi hwrap), fun _ => rfl⟩

theorem absorb_full : absorb ⟨0, Fin.last m⟩ db = [⟨0, Fin.last m⟩] := by
  induction db with
  | nil => rfl
  | cons iter rest ih =>
    have hunify : IntervalItem.unify ⟨0, Fin.last m⟩ iter = ⟨0, Fin.last m⟩ := by
      simp [IntervalItem.unify, not_lt.2 (Fin.le_last _)]
    rw [absorb, if_pos, hunify, ih]
    rw [Bool.or_eq_true, decide_eq_true_eq]
    exact .inl (Fin.le_last _)

/-- The whole range stays as it is. -/
theorem addItem_full : addItem base [⟨0, Fin.last m⟩] = [⟨0, Fin.last m⟩] := by
  have hunify : base.unify ⟨0, Fin.last m⟩ = ⟨0, Fin.last m⟩ := by
    rw [IntervalItem.unify, IntervalItem.mk.injEq]
    constructor
    · split_ifs with h
      · rfl
      · exact le_antisymm (not_lt.1 h) (Fin.zero_le _)
    · split_ifs with h
      · rfl
      · exact le_antisymm (Fin.le_last _) (not_lt.1 h)
  have hskip : ¬ (base.min_val > Fin.last m && !base.isContiguous ⟨0, Fin.last m⟩) = true := by
    simp [not_lt.2 (Fin.le_last _)]
  rw [addItem, if_neg hskip, absorb, if_pos, hunify, absorb]
  rw [Bool.or_eq_true, decide_eq_true_eq]
  exact .inl (Fin.zero_le _)

theorem skip_iff {base it : IntervalItem ℕ} (hbase : base.min_val ≤ base.max_val)
    (hit : it.min_val ≤ it.max_val) :
    (base.min_val > it.max_val && !base.isContiguous it) = true ↔
      it.max_val + 1 < base.min_val := by
  rw [Bool.and_eq_true, decide_eq_true_eq, Bool.not_eq_true', ← Bool.not_eq_true, isContiguous_iff]
  omega

/-- What the first pass skips: the items before `base`, up to the wrap. -/
theorem skip_unsigned_iff (hbase : base.min_val ≤ base.max_val) (hit : it.min_val ≤ it.max_val) :
    (base.min_val > it.max_val && !base.isContiguous it) = true ↔
      (it.max_val : ℕ) + 1 < base.min_val ∧
        ¬ (base.max_val = Fin.last m ∧ it.min_val = 0) := by
  have hskip := @skip_iff base.val it.val hbase hit
  rw [Bool.and_eq_true, decide_eq_true_eq, Bool.not_eq_true', ← Bool.not_eq_true] at hskip ⊢
  rw [IntervalItem.isContiguous_val, not_or, not_or, ← and_assoc, gt_iff_lt, Fin.lt_def]
  constructor
  · rintro ⟨h, hlast, -⟩
    exact ⟨hskip.1 h, hlast⟩
  · rintro ⟨h, hlast⟩
    refine ⟨hskip.2 h, hlast, ?_⟩
    rintro ⟨hzero, -⟩
    rw [hzero] at h
    exact absurd h (Nat.not_lt_zero _)

/-- The items which the first pass leaves end after `base` starts. -/
theorem le_of_not_skip (h : IsSane (it :: db)) (hskip : ¬ (it.max_val : ℕ) + 1 < base.min_val) :
    ∀ b ∈ it :: db, (base.min_val : ℕ) ≤ b.max_val + 1 := by
  obtain ⟨-, hall, hdb⟩ := isSane_cons_unsigned.1 h
  rw [not_lt] at hskip
  rintro b (_ | ⟨_, hb⟩)
  · exact hskip
  · have := hall b hb
    have := Fin.le_def.1 (IsSane.le_unsigned hdb hb)
    omega

/-- Without the value `0` nothing wraps. -/
theorem addItem_vals_of_zero (h : IsSane db) (hbase : base.min_val ≤ base.max_val)
    (hzero : base.min_val ≠ 0) (hdb : ∀ b ∈ db, b.min_val ≠ 0) :
    vals (addItem base db) = addItem base.val (vals db) := by
  induction db with
  | nil => rfl
  | cons iter rest ih =>
    obtain ⟨hiter, hall, hrest⟩ := isSane_cons_unsigned.1 h
    have hiff := skip_unsigned_iff hbase hiter
    rw [and_iff_left fun hlast => hdb iter List.mem_cons_self hlast.2] at hiff
    rw [vals_cons, addItem, addItem]
    by_cases hskip : (iter.max_val : ℕ) + 1 < base.min_val
    · rw [if_pos (hiff.2 hskip), if_pos ((skip_iff hbase hiter).2 hskip), vals_cons,
        ih hrest fun b hb => hdb b (List.mem_cons_of_mem _ hb)]
    · rw [if_neg (hskip ∘ hiff.1), if_neg (hskip ∘ (skip_iff hbase hiter).1)]
      apply (absorb_cases h hbase (le_of_not_skip h hskip)).2
      intro hgap
      rcases hgap.zero with ⟨b, hb, hle, -⟩ | ⟨hle, -⟩
      · exact hdb b hb (le_antisymm hle (Fin.zero_le _))
      · exact hzero (le_antisymm hle (Fin.zero_le _))

/-- **The union.**  It is as over the natural numbers, except when it wraps: the whole range
is then taken. -/
theorem addItem_cases (h : IsSane db) (hbase : base.min_val ≤ base.max_val) :
    (WrapsAround base (toSet db) → addItem base db = [⟨0, Fin.last m⟩]) ∧
      (¬ WrapsAround base (toSet db) → vals (addItem base db) = addItem base.val (vals db)) := by
  cases db with
  | nil =>
    refine ⟨fun hwrap => ?_, fun _ => rfl⟩
    rcases hwrap with hgap | hgap
    · exact (absorb_cases h hbase fun b hb => absurd hb List.not_mem_nil).1 hgap
    · have hzero := hgap.zero
      rw [toSet_nil] at hzero
      exact absurd hzero (Set.notMem_empty _)
  | cons iter rest =>
    obtain ⟨hiter, hall, hrest⟩ := isSane_cons_unsigned.1 h
    have hiter' := Fin.le_def.1 hiter
    have hbase' := Fin.le_def.1 hbase
    -- `0` can be in the first item only
    have hzero : 0 ∈ toSet (iter :: rest) → iter.min_val = 0 := by
      rw [toSet_cons]
      rintro (hmem | hmem)
      · exact le_antisymm hmem.1 (Fin.zero_le _)
      · exact absurd (lt_of_mem_toSet hall hmem) (Nat.not_lt_zero _)
    rw [vals_cons, addItem, addItem]
    by_cases hskip : (iter.max_val : ℕ) + 1 < base.min_val
    · have hlt : (iter.max_val : ℕ) + 1 < m + 1 := hskip.trans base.min_val.isLt
      -- the value after `iter` is missing
      have hmiss : (⟨iter.max_val + 1, hlt⟩ : Unsigned m) ∉ toSet (iter :: rest) := by
        rw [toSet_cons]
        rintro (hmem | hmem)
        · exact absurd (Fin.le_def.1 hmem.2) (Nat.not_succ_le_self _)
        · exact absurd (lt_of_mem_toSet hall hmem) (lt_irrefl _)
      rw [if_pos ((skip_iff hbase hiter).2 hskip)]
      by_cases hwrap : base.max_val = Fin.last m ∧ iter.min_val = 0
      · have hno : ¬ (base.min_val > iter.max_val && !base.isContiguous iter) = true :=
          fun hc => ((skip_unsigned_iff hbase hiter).1 hc).2 hwrap
        rw [if_neg hno]
        refine ⟨fun _ => ?_, fun hno => absurd (Or.inr ⟨?_, hwrap.1, _, hskip, hmiss⟩) hno⟩
        · have hunify : base.unify iter = ⟨0, Fin.last m⟩ := by
            rw [← IntervalItem.val_injective.eq_iff]
            show IntervalItem.mk _ _ = IntervalItem.mk _ _
            rw [min_val_unify, max_val_unify, hwrap.1, hwrap.2]
            simp [Fin.val_last, Nat.le_of_lt_succ iter.max_val.isLt]
          rw [absorb, if_pos, hunify, absorb_full]
          rw [touch_unsigned_iff hbase hiter]
          left
          omega
        · rw [toSet_cons]
          exact .inl ⟨hwrap.2.le, Fin.zero_le _⟩
      · rw [if_pos ((skip_unsigned_iff hbase hiter).2 ⟨hskip, hwrap⟩)]
        refine ⟨?_, fun _ => ?_⟩
        · rintro (hgap | hgap)
          · have := Fin.lt_def.1 (hgap.above ⟨iter.max_val + 1, hlt⟩ ?_)
            · simp only [] at this
              omega
            · rintro (hmem | hmem)
              · exact hmiss hmem
              · exact absurd (Fin.le_def.1 hmem.1) (not_le.2 hskip)
          · exact absurd ⟨hgap.last, hzero hgap.zero⟩ hwrap
        · rw [vals_cons, addItem_vals_of_zero hrest hbase]
          · exact ne_zero_of_lt_val hskip
          · intro b hb
            exact ne_zero_of_lt_val (hall b hb)
    · have hno : ¬ (base.min_val > iter.max_val && !base.isContiguous iter) = true :=
        fun hc => hskip ((skip_unsigned_iff hbase hiter).1 hc).1
      have hlow : WrapsAround base (toSet (iter :: rest)) ↔ LowGap base (toSet (iter :: rest)) := by
        refine or_iff_left fun hgap => ?_
        obtain ⟨x, hx, hmiss⟩ := hgap.gap
        apply hmiss
        rw [toSet_cons]
        refine .inl ⟨?_, ?_⟩
        · rw [hzero hgap.zero]
          exact Fin.zero_le _
        · have := Fin.lt_def.1 hx
          exact Fin.le_def.2 (by omega)
      rw [if_neg hno, if_neg (hskip ∘ (skip_iff hbase hiter).1), hlow]
      exact absorb_cases h hbase (le_of_not_skip h hskip)

end Union

/-! ### The sets -/

section Sets

variable {A B : ItemDb (Unsigned m)} {item : IntervalItem (Unsigned m)}

theorem isSane_full : IsSane [(⟨0, Fin.last m⟩ : IntervalItem (Unsigned m))] :=
  Fin.zero_le _

theorem toSet_full : toSet [(⟨0, Fin.last m⟩ : IntervalItem (Unsigned m))] = Set.univ := by
  rw [toSet_cons, toSet_nil, Set.union_empty, Set.eq_univ_iff_forall]
  exact fun x => ⟨Fin.zero_le _, Fin.le_last _⟩

/-- Two lists denote the same set when they do over the natural numbers. -/
theorem toSet_eq_of_vals {S : Set (Unsigned m)} (h : ∀ x : Unsigned m, Mem (x : ℕ) (vals A) ↔ x ∈ S) :
    toSet A = S := by
  ext x
  rw [mem_toSet, ← mem_vals, h]

theorem isSane_addItem (hA : IsSane A) (hitem : item.min_val ≤ item.max_val) :
    IsSane (addItem item A) := by
  by_cases hwrap : WrapsAround item (toSet A)
  · rw [(addItem_cases hA hitem).1 hwrap]
    exact isSane_full
  · rw [← isSane_vals, (addItem_cases hA hitem).2 hwrap]
    exact (addItem_spec (isSane_vals.2 hA) hitem).1

theorem toSet_addItem (hA : IsSane A) (hitem : item.min_val ≤ item.max_val)
    (hwrap : ¬ WrapsAround item (toSet A)) :
    toSet (addItem item A) = toSet A ∪ item.toSet := by
  apply toSet_eq_of_vals
  intro x
  rw [(addItem_cases hA hitem).2 hwrap, (addItem_spec (isSane_vals.2 hA) hitem).2.1, mem_vals,
    Set.union_comm]
  rfl

theorem toSet_addItem_of_wrapsAround (hA : IsSane A) (hitem : item.min_val ≤ item.max_val)
    (hwrap : WrapsAround item (toSet A)) : toSet (addItem item A) = Set.univ := by
  rw [(addItem_cases hA hitem).1 hwrap, toSet_full]

/-- A union which wraps is not the whole range. -/
theorem ne_univ_of_wrapsAround {S : Set (Unsigned m)} (hwrap : WrapsAround item S) :
    S ∪ item.toSet ≠ Set.univ := by
  rw [Set.ne_univ_iff_exists_notMem]
  rcases hwrap with hgap | hgap
  · exact hgap.gap
  · obtain ⟨x, hx, hmiss⟩ := hgap.gap
    refine ⟨x, ?_⟩
    rintro (hmem | hmem)
    · exact hmiss hmem
    · exact absurd hx (not_lt.2 hmem.1)

theorem toSet_addItem_iff (hA : IsSane A) (hitem : item.min_val ≤ item.max_val) :
    toSet (addItem item A) = toSet A ∪ item.toSet ↔ ¬ WrapsAround item (toSet A) := by
  refine ⟨fun h hwrap => ?_, toSet_addItem hA hitem⟩
  rw [toSet_addItem_of_wrapsAround hA hitem hwrap] at h
  exact ne_univ_of_wrapsAround hwrap h.symm

theorem isSane_subItem (hA : IsSane A) (hitem : item.min_val ≤ item.max_val) :
    IsSane (subItem item A) := by
  rw [← isSane_vals, subItem_vals]
  exact (subItem_spec (isSane_vals.2 hA) hitem).1

theorem toSet_subItem (hA : IsSane A) (hitem : item.min_val ≤ item.max_val) :
    toSet (subItem item A) = toSet A \ item.toSet := by
  apply toSet_eq_of_vals
  intro x
  rw [subItem_vals, (subItem_spec (isSane_vals.2 hA) hitem).2.1, mem_vals]
  rfl

theorem sub_vals : vals (sub A B) = sub (vals A) (vals B) := by
  induction B generalizing A with
  | nil => rfl
  | cons item rest ih =>
    show vals (sub (subItem item A) rest) = sub (subItem item.val (vals A)) (vals rest)
    rw [ih, subItem_vals]

theorem le_of_mem_vals_items (hB : ∀ b ∈ B, b.min_val ≤ b.max_val) :
    ∀ b ∈ vals B, b.min_val ≤ b.max_val := by
  intro b hb
  obtain ⟨item, hitem, rfl⟩ := List.mem_map.1 hb
  exact hB item hitem

theorem isSane_sub (hA : IsSane A) (hB : ∀ b ∈ B, b.min_val ≤ b.max_val) : IsSane (sub A B) := by
  rw [← isSane_vals, sub_vals]
  exact (sub_spec (isSane_vals.2 hA) (le_of_mem_vals_items hB)).1

theorem toSet_sub (hA : IsSane A) (hB : ∀ b ∈ B, b.min_val ≤ b.max_val) :
    toSet (sub A B) = toSet A \ toSet B := by
  apply toSet_eq_of_vals
  intro x
  rw [sub_vals, (sub_spec (isSane_vals.2 hA) (le_of_mem_vals_items hB)).2, mem_vals, mem_vals]
  rfl

/-- A step of `operator +=` of an interval wraps. -/
def StepWraps (A : Set (Unsigned m)) : ItemDb (Unsigned m) → Prop
  | [] => False
  | item :: rest => WrapsAround item A ∨ StepWraps (A ∪ item.toSet) rest

/-- A step of `operator +=` wraps, and the union is not the whole range. -/
def AddWrapsAround (A : Set (Unsigned m)) (B : ItemDb (Unsigned m)) : Prop :=
  StepWraps A B ∧ A ∪ toSet B ≠ Set.univ

theorem isSane_add (hA : IsSane A) (hB : ∀ b ∈ B, b.min_val ≤ b.max_val) : IsSane (add A B) := by
  induction B generalizing A with
  | nil => exact hA
  | cons item rest ih =>
    exact ih (isSane_addItem hA (hB item List.mem_cons_self))
      fun b hb => hB b (List.mem_cons_of_mem _ hb)

theorem add_full : add [⟨0, Fin.last m⟩] B = [⟨0, Fin.last m⟩] := by
  induction B with
  | nil => rfl
  | cons item rest ih =>
    show add (addItem item [⟨0, Fin.last m⟩]) rest = _
    rw [addItem_full, ih]

/-- A step which wraps takes the whole range, which the next ones leave. -/
theorem toSet_add_cases (hA : IsSane A) (hB : ∀ b ∈ B, b.min_val ≤ b.max_val) :
    (StepWraps (toSet A) B → toSet (add A B) = Set.univ) ∧
      (¬ StepWraps (toSet A) B → toSet (add A B) = toSet A ∪ toSet B) := by
  induction B generalizing A with
  | nil =>
    refine ⟨False.elim, fun _ => ?_⟩
    rw [toSet_nil, Set.union_empty]
    rfl
  | cons item rest ih =>
    have hitem := hB item List.mem_cons_self
    have hadd : add A (item :: rest) = add (addItem item A) rest := rfl
    by_cases hwrap : WrapsAround item (toSet A)
    · refine ⟨fun _ => ?_, fun hno => absurd (Or.inl hwrap) hno⟩
      rw [hadd, (addItem_cases hA hitem).1 hwrap, add_full, toSet_full]
    · have hset := toSet_addItem hA hitem hwrap
      obtain ⟨hsome, hnone⟩ := ih (isSane_addItem hA hitem)
        fun b hb => hB b (List.mem_cons_of_mem _ hb)
      rw [hset] at hsome hnone
      refine ⟨fun hstep => hadd ▸ hsome (hstep.resolve_left hwrap), fun hno => ?_⟩
      rw [hadd, hnone fun hstep => hno (.inr hstep), toSet_cons, Set.union_assoc]

theorem toSet_add_iff (hA : IsSane A) (hB : ∀ b ∈ B, b.min_val ≤ b.max_val) :
    toSet (add A B) = toSet A ∪ toSet B ↔ ¬ AddWrapsAround (toSet A) B := by
  obtain ⟨hsome, hnone⟩ := toSet_add_cases hA hB
  by_cases hstep : StepWraps (toSet A) B
  · rw [hsome hstep, AddWrapsAround, not_and_not_right, eq_comm]
    exact ⟨fun h _ => h, fun h => h hstep⟩
  · exact ⟨fun _ h => hstep h.1, fun _ => hnone hstep⟩

/-! ### The queries -/

theorem mem_toSet_cons : x ∈ toSet (it :: db) ↔
    ((it.min_val : ℕ) ≤ x ∧ (x : ℕ) ≤ it.max_val) ∨ x ∈ toSet db := by
  rw [toSet_cons]
  rfl

/-- The first item starts at the least value. -/
theorem min_val_le_of_mem (h : IsSane (it :: db)) (hx : x ∈ toSet (it :: db)) :
    it.min_val ≤ x := by
  obtain ⟨hit, hall, -⟩ := isSane_cons_unsigned.1 h
  rw [Fin.le_def] at hit ⊢
  rcases mem_toSet_cons.1 hx with hx | hx
  · exact hx.1
  · have := lt_of_mem_toSet hall hx
    omega

theorem min_val_mem (h : IsSane (it :: db)) : it.min_val ∈ toSet (it :: db) :=
  mem_toSet_cons.2 (.inl ⟨le_refl _, (isSane_cons_unsigned.1 h).1⟩)

/-- The items after the first have the values above it. -/
theorem mem_toSet_tail (h : IsSane (it :: db)) :
    x ∈ toSet db ↔ x ∈ toSet (it :: db) ∧ it.max_val < x := by
  obtain ⟨-, hall, -⟩ := isSane_cons_unsigned.1 h
  rw [mem_toSet_cons, Fin.lt_def]
  constructor
  · intro hx
    have := lt_of_mem_toSet hall hx
    exact ⟨.inr hx, by omega⟩
  · rintro ⟨hx | hx, hlt⟩
    · omega
    · exact hx

/-- The first item ends where the set first stops. -/
theorem max_val_le_of_subset {it' : IntervalItem (Unsigned m)} {db' : ItemDb (Unsigned m)}
    (h : IsSane (it :: db)) (hmin : it.min_val = it'.min_val)
    (hsub : toSet (it' :: db') ⊆ toSet (it :: db)) : it'.max_val ≤ it.max_val := by
  obtain ⟨hit, hall, -⟩ := isSane_cons_unsigned.1 h
  by_contra hlt
  rw [not_le, Fin.lt_def] at hlt
  rw [Fin.le_def] at hit
  -- the value after `it` is in `it'`
  have hnext : (it.max_val : ℕ) + 1 < m + 1 := lt_of_le_of_lt hlt it'.max_val.isLt
  have hmem : (⟨it.max_val + 1, hnext⟩ : Unsigned m) ∈ toSet (it :: db) := by
    apply hsub
    rw [mem_toSet_cons, ← hmin]
    exact .inl ⟨by simp only []; omega, hlt⟩
  rcases mem_toSet_cons.1 hmem with hmem | hmem
  · exact absurd hmem.2 (Nat.not_succ_le_self _)
  · exact absurd (lt_of_mem_toSet hall hmem) (lt_irrefl _)

/-- **Canonicity**: a sane list is the only one of its set. -/
theorem eq_of_toSet_eq (hA : IsSane A) (hB : IsSane B) (h : toSet A = toSet B) : A = B := by
  induction A generalizing B with
  | nil =>
    cases B with
    | nil => rfl
    | cons b bs =>
      have := h.symm ▸ min_val_mem hB
      rw [toSet_nil] at this
      exact absurd this (Set.notMem_empty _)
  | cons a as ih =>
    cases B with
    | nil =>
      have := h ▸ min_val_mem hA
      rw [toSet_nil] at this
      exact absurd this (Set.notMem_empty _)
    | cons b bs =>
      have hmin : a.min_val = b.min_val :=
        le_antisymm (min_val_le_of_mem hA (h.symm ▸ min_val_mem hB))
          (min_val_le_of_mem hB (h ▸ min_val_mem hA))
      have hmax : a.max_val = b.max_val :=
        le_antisymm (max_val_le_of_subset hB hmin.symm h.le) (max_val_le_of_subset hA hmin h.ge)
      have htail : toSet as = toSet bs := by
        ext x
        rw [mem_toSet_tail hA, mem_toSet_tail hB, h, hmax]
      have heq : a = b := by
        cases a
        cases b
        simp only [IntervalItem.mk.injEq]
        exact ⟨hmin, hmax⟩
      rw [heq, ih (isSane_cons_unsigned.1 hA).2.2 (isSane_cons_unsigned.1 hB).2.2 htail]

theorem compareItems_eq_iff (hlen : A.length = B.length) : compareItems A B = .eq ↔ A = B := by
  induction A generalizing B with
  | nil =>
    rw [List.eq_nil_of_length_eq_zero hlen.symm]
    exact ⟨fun _ => rfl, fun _ => rfl⟩
  | cons a as ih =>
    cases B with
    | nil => cases hlen
    | cons b bs =>
      have ih := @ih bs (Nat.succ.inj hlen)
      rw [compareItems, List.cons.injEq]
      split_ifs with heq hlt hgt hlt' hgt'
      · rw [ih, and_iff_right heq]
      · simp [heq]
      · simp [heq]
      · simp [heq]
      · simp [heq]
      · -- two items which differ have a bound which differs
        refine absurd ?_ heq
        rw [not_lt] at hlt hgt hlt' hgt'
        cases a
        cases b
        simp only [IntervalItem.mk.injEq]
        exact ⟨le_antisymm hgt hlt, le_antisymm hgt' hlt'⟩

theorem beq_iff (hA : IsSane A) (hB : IsSane B) : beq A B = true ↔ toSet A = toSet B := by
  rw [beq, decide_eq_true_eq, compare]
  split_ifs with hlt hgt
  · refine ⟨nofun, fun h => ?_⟩
    rw [eq_of_toSet_eq hA hB h] at hlt
    exact absurd hlt (lt_irrefl _)
  · refine ⟨nofun, fun h => ?_⟩
    rw [eq_of_toSet_eq hA hB h] at hgt
    exact absurd hgt (lt_irrefl _)
  · rw [compareItems_eq_iff (le_antisymm (not_lt.1 hgt) (not_lt.1 hlt))]
    exact ⟨fun h => h ▸ rfl, eq_of_toSet_eq hA hB⟩

theorem fullyIncludeItem_iff (hA : IsSane A) (hitem : item.min_val ≤ item.max_val) :
    fullyIncludeItem item A = true ↔ item.toSet ⊆ toSet A := by
  induction A with
  | nil =>
    refine ⟨nofun, fun h => ?_⟩
    have := h ⟨le_refl _, hitem⟩
    rw [toSet_nil] at this
    exact absurd this (Set.notMem_empty _)
  | cons iter rest ih =>
    obtain ⟨hiter, hall, hrest⟩ := isSane_cons_unsigned.1 hA
    rw [fullyIncludeItem]
    split_ifs with hbreak hinc
    · refine ⟨nofun, fun h => ?_⟩
      exact absurd hbreak (not_lt.2 (min_val_le_of_mem hA (h ⟨hitem, le_refl _⟩)))
    · refine ⟨fun _ x hx => ?_, fun _ => rfl⟩
      simp only [IntervalItem.fullyInclude, Bool.and_eq_true, decide_eq_true_eq] at hinc
      rw [toSet_cons]
      exact .inl ⟨hinc.2.trans hx.1, hx.2.trans hinc.1⟩
    · rw [ih hrest]
      constructor
      · intro h x hx
        rw [toSet_cons]
        exact .inr (h hx)
      · intro h x hx
        rw [mem_toSet_tail hA]
        refine ⟨h hx, ?_⟩
        by_contra hle
        rw [not_lt] at hle
        have hmin := min_val_le_of_mem hA (h ⟨le_refl _, hitem⟩)
        -- `item` starts in `iter`, so it goes on after it
        have hend : iter.max_val < item.max_val := by
          by_contra hno
          apply hinc
          simp only [IntervalItem.fullyInclude, Bool.and_eq_true, decide_eq_true_eq]
          exact ⟨not_lt.1 hno, hmin⟩
        have hnext : (iter.max_val : ℕ) + 1 < m + 1 :=
          lt_of_le_of_lt (Fin.lt_def.1 hend) item.max_val.isLt
        have hmem : (⟨iter.max_val + 1, hnext⟩ : Unsigned m) ∈ toSet (iter :: rest) := by
          apply h
          refine ⟨?_, Fin.lt_def.1 hend⟩
          have := Fin.le_def.1 (hx.1.trans hle)
          exact Fin.le_def.2 (Nat.le_succ_of_le this)
        rcases mem_toSet_cons.1 hmem with hmem | hmem
        · exact absurd hmem.2 (Nat.not_succ_le_self _)
        · exact absurd (lt_of_mem_toSet hall hmem) (lt_irrefl _)

theorem isDistinctItem_iff (hA : IsSane A) (hitem : item.min_val ≤ item.max_val) :
    isDistinctItem item A = true ↔ Disjoint (toSet A) item.toSet := by
  induction A with
  | nil =>
    rw [toSet_nil]
    exact ⟨fun _ => Set.empty_disjoint _, fun _ => rfl⟩
  | cons iter rest ih =>
    obtain ⟨hiter, -, hrest⟩ := isSane_cons_unsigned.1 hA
    have hdist : iter.isDistinct item = true ↔ Disjoint iter.toSet item.toSet := by
      rw [IntervalItem.toSet, IntervalItem.toSet, Set.disjoint_left]
      unfold IntervalItem.isDistinct
      split_ifs with hlt hgt
      · refine iff_of_true rfl fun x hx hx' => ?_
        exact absurd (hx'.1.trans hx.2) (not_le.2 hlt)
      · refine iff_of_true rfl fun x hx hx' => ?_
        exact absurd (hx.1.trans hx'.2) (not_le.2 hgt)
      · refine iff_of_false id fun h => ?_
        rw [not_lt] at hlt hgt
        rcases le_total iter.min_val item.min_val with hle | hle
        · exact h ⟨hle, hlt⟩ ⟨le_refl _, hitem⟩
        · exact h ⟨le_refl _, hiter⟩ ⟨hle, hgt⟩
    rw [isDistinctItem]
    split_ifs with hbreak hno
    · refine iff_of_true rfl (Set.disjoint_left.2 fun x hx hx' => ?_)
      exact absurd ((min_val_le_of_mem hA hx).trans hx'.2) (not_le.2 hbreak)
    · rw [Bool.not_eq_true'] at hno
      rw [toSet_cons, Set.disjoint_union_left, ← hdist, hno]
      exact iff_of_false id fun h => Bool.false_ne_true h.1
    · rw [Bool.not_eq_true', Bool.not_eq_false] at hno
      rw [ih hrest, toSet_cons, Set.disjoint_union_left, and_iff_right (hdist.1 hno)]

theorem fullyInclude_iff (hA : IsSane A) (hB : IsSane B) :
    fullyInclude A B = true ↔ toSet B ⊆ toSet A := by
  rw [fullyInclude, List.all_eq_true]
  constructor
  · rintro h x ⟨it, hit, hx⟩
    exact (fullyIncludeItem_iff hA (hB.le_unsigned hit)).1 (h it hit) hx
  · intro h it hit
    rw [fullyIncludeItem_iff hA (hB.le_unsigned hit)]
    exact fun x hx => h ⟨it, hit, hx⟩

theorem isDistinct_iff (hA : IsSane A) (hB : IsSane B) :
    isDistinct A B = true ↔ Disjoint (toSet A) (toSet B) := by
  rw [isDistinct, List.all_eq_true, Set.disjoint_right]
  constructor
  · rintro h x ⟨it, hit, hx⟩ hxA
    have hdisj := (isDistinctItem_iff hA (hB.le_unsigned hit)).1 (h it hit)
    exact Set.disjoint_left.1 hdisj hxA hx
  · intro h it hit
    rw [isDistinctItem_iff hA (hB.le_unsigned hit), Set.disjoint_right]
    exact fun x hx => h ⟨it, hit, hx⟩

theorem contain_iff_mem (hA : IsSane A) : contain A x = true ↔ x ∈ toSet A := by
  rw [contain, fullyIncludeItem_iff hA (le_refl _), IntervalItem.toSet, Set.Icc_self,
    Set.singleton_subset_iff]

/-- The number of values is the sum of the lengths. -/
theorem ncard_toSet (hA : IsSane A) :
    (toSet A).ncard = (A.map fun it => (it.max_val : ℕ) - it.min_val + 1).sum := by
  induction A with
  | nil =>
    rw [toSet_nil, Set.ncard_empty]
    rfl
  | cons it rest ih =>
    obtain ⟨hit, -, hrest⟩ := isSane_cons_unsigned.1 hA
    have hdisj : Disjoint it.toSet (toSet rest) := by
      rw [Set.disjoint_left]
      intro x hx hx'
      exact absurd hx.2 (not_le.2 ((mem_toSet_tail hA).1 hx').2)
    rw [toSet_cons, Set.ncard_union_eq hdisj, ih hrest, List.map_cons, List.sum_cons,
      IntervalItem.toSet, Set.ncard_eq_toFinset_card', Set.toFinset_Icc, Fin.card_Icc]
    rw [Fin.le_def] at hit
    omega

theorem length_val (hitem : item.min_val ≤ item.max_val) :
    (item.length : ℕ) = ((item.max_val : ℕ) - item.min_val + 1) % (m + 1) := by
  rw [IntervalItem.length, Fin.val_add, Fin.val_one', Fin.sub_val_of_le hitem, Nat.add_mod_mod]

theorem totalLength_val (hA : IsSane A) :
    (totalLength A).val = (toSet A).ncard % (m + 1) := by
  have hfold : ∀ (db : ItemDb (Unsigned m)) (total : Unsigned m),
      (∀ it ∈ db, it.min_val ≤ it.max_val) →
      (db.foldl (fun total item => total + item.length) total).val =
        (total + (db.map fun it => (it.max_val : ℕ) - it.min_val + 1).sum) % (m + 1) := by
    intro db
    induction db with
    | nil =>
      intro total _
      exact (Nat.mod_eq_of_lt total.isLt).symm
    | cons it rest ih =>
      intro total hdb
      rw [List.foldl_cons, ih _ fun b hb => hdb b (List.mem_cons_of_mem _ hb), Fin.val_add,
        length_val (hdb it List.mem_cons_self), List.map_cons, List.sum_cons]
      simp only [Nat.add_mod_mod, Nat.mod_add_mod, Nat.add_assoc]
  rw [totalLength, hfold A 0 fun _ => hA.le_unsigned, ncard_toSet hA, Fin.val_zero, Nat.zero_add]

/-- The sum is the number of values, unless that is one more than the largest value. -/
theorem totalLength_iff (hA : IsSane A) :
    (totalLength A).val = (toSet A).ncard ↔ toSet A ≠ Set.univ := by
  rw [totalLength_val hA]
  constructor
  · intro h huniv
    rw [huniv, Set.ncard_univ, Nat.card_eq_fintype_card, Fintype.card_fin, Nat.mod_self] at h
    cases h
  · intro hne
    have := Set.ncard_lt_card hne
    rw [Nat.card_eq_fintype_card, Fintype.card_fin] at this
    exact Nat.mod_eq_of_lt this

/-! ### The whole contract -/

/-- `A`, `B` and `item` are a finite set representation: the operators keep `is_sane` and
denote the union and the difference, the comparison and the queries read the sets. -/
structure SetSemantics (A B : ItemDb (Unsigned m)) (item : IntervalItem (Unsigned m)) : Prop where
  sane_addItem : IsSane (addItem item A)
  sane_subItem : IsSane (subItem item A)
  sane_add : IsSane (add A B)
  sane_sub : IsSane (sub A B)
  addItem : toSet (addItem item A) = toSet A ∪ item.toSet
  subItem : toSet (subItem item A) = toSet A \ item.toSet
  add : toSet (add A B) = toSet A ∪ toSet B
  sub : toSet (sub A B) = toSet A \ toSet B
  beq : beq A B = true ↔ toSet A = toSet B
  fullyIncludeItem : fullyIncludeItem item A = true ↔ item.toSet ⊆ toSet A
  fullyInclude : fullyInclude A B = true ↔ toSet B ⊆ toSet A
  isDistinctItem : isDistinctItem item A = true ↔ Disjoint (toSet A) item.toSet
  isDistinct : isDistinct A B = true ↔ Disjoint (toSet A) (toSet B)
  contain : ∀ x, contain A x = true ↔ x ∈ toSet A
  sum : (totalLength A).val = (toSet A).ncard

/-- **Interval set semantics over the full range**: it holds exactly when no union wraps and
the set which is summed is not the whole range. -/
theorem setSemantics_iff (hA : IsSane A) (hB : IsSane B) (hitem : item.min_val ≤ item.max_val) :
    SetSemantics A B item ↔
      ¬ WrapsAround item (toSet A) ∧ ¬ AddWrapsAround (toSet A) B ∧ toSet A ≠ Set.univ := by
  have hitems : ∀ b ∈ B, b.min_val ≤ b.max_val := fun _ => hB.le_unsigned
  rw [← toSet_addItem_iff hA hitem, ← toSet_add_iff hA hitems, ← totalLength_iff hA]
  constructor
  · exact fun h => ⟨h.addItem, h.add, h.sum⟩
  · rintro ⟨haddItem, hadd, hsum⟩
    exact
      { sane_addItem := isSane_addItem hA hitem
        sane_subItem := isSane_subItem hA hitem
        sane_add := isSane_add hA hitems
        sane_sub := isSane_sub hA hitems
        addItem := haddItem
        subItem := toSet_subItem hA hitem
        add := hadd
        sub := toSet_sub hA hitems
        beq := beq_iff hA hB
        fullyIncludeItem := fullyIncludeItem_iff hA hitem
        fullyInclude := fullyInclude_iff hA hB
        isDistinctItem := isDistinctItem_iff hA hitem
        isDistinct := isDistinct_iff hA hB
        contain := fun _ => contain_iff_mem hA
        sum := hsum }

/-- Two intervals of bytes which do not wrap. -/
theorem setSemantics_iff_sample :
    SetSemantics [(⟨0, 3⟩ : IntervalItem (Unsigned 255)), ⟨8, 9⟩] [⟨4, 7⟩, ⟨20, 255⟩] ⟨10, 12⟩ ↔
      ¬ WrapsAround ⟨10, 12⟩ (toSet [(⟨0, 3⟩ : IntervalItem (Unsigned 255)), ⟨8, 9⟩]) ∧
      ¬ AddWrapsAround (toSet [(⟨0, 3⟩ : IntervalItem (Unsigned 255)), ⟨8, 9⟩])
        [⟨4, 7⟩, ⟨20, 255⟩] ∧
      toSet [(⟨0, 3⟩ : IntervalItem (Unsigned 255)), ⟨8, 9⟩] ≠ Set.univ :=
  setSemantics_iff (by decide) (by decide) (by decide)

/-- The first byte of a file and the last `file_size_t`: their union is everything. -/
theorem not_setSemantics : ¬ SetSemantics [(⟨0, 0⟩ : IntervalItem (Unsigned (2 ^ 64 - 1)))] []
    ⟨Fin.last _, Fin.last _⟩ := by
  intro h
  refine (toSet_addItem_iff (le_refl _) (le_refl _)).1 h.addItem (.inr ⟨?_, rfl, 1, ?_, ?_⟩)
  · exact mem_toSet_cons.2 (.inl ⟨le_refl _, le_refl _⟩)
  · exact Fin.lt_def.2 (by decide)
  · rw [toSet_cons, toSet_nil, Set.union_empty]
    rintro ⟨-, hle⟩
    exact absurd (Fin.le_def.1 hle) (by decide)

end Sets

end ItemDb

end Vals

end Neoip
