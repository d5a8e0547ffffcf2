/-
Neoip/Interval.lean

`interval_item_t` and `interval_t`: finite sets of integers kept as a sorted
list of disjoint, non contiguous items.

The operators are translated over an arbitrary integer type `T`, as the
template is.  `is_sane` is the source's own check.  `FileSizeInval` is
`interval_t<file_size_t>` with its sanity as a field; its values are byte
offsets, which stay far below the largest `file_size_t`, so they are natural
numbers here.

Main results: adding and removing an item keeps the interval sane and denotes
the union and the difference of the sets (`FileSizeInval.mem_addItem`,
`FileSizeInval.mem_subItem`), and so for two intervals (`FileSizeInval.mem_add`,
`FileSizeInval.mem_sub`).
-/
import Mathlib.Algebra.Group.Nat.Defs
import Mathlib.Data.List.Basic
import Mathlib.Data.Nat.Notation
import Mathlib.Order.Lattice
import Mathlib.Order.Nat
import Mathlib.Tactic.Common

namespace Neoip

/-! ### Items -/

/-- `interval_item_t`: the values from `min_val` to `max_val`, both included. -/
structure IntervalItem (T : Type*) where
  min_val : T
  max_val : T
deriving DecidableEq, Repr

namespace IntervalItem

variable {T : Type*} [LinearOrder T] [Add T] [Sub T] [One T]

def length (it : IntervalItem T) : T := it.max_val - it.min_val + 1

def isDistinct (it other : IntervalItem T) : Bool :=
  if it.max_val < other.min_val then true
  else if it.min_val > other.max_val then true
  else false

def fullyInclude (it other : IntervalItem T) : Bool :=
  other.max_val ≤ it.max_val && it.min_val ≤ other.min_val

def isContiguous (it other : IntervalItem T) : Bool :=
  if it.max_val + 1 = other.min_val then true
  else if it.min_val = other.max_val + 1 then true
  else false

def unify (it other : IntervalItem T) : IntervalItem T where
  min_val := if it.min_val > other.min_val then other.min_val else it.min_val
  max_val := if it.max_val < other.max_val then other.max_val else it.max_val

end IntervalItem

/-! ### The operators on item lists -/

/-- The `item_db` of an `interval_t`. -/
abbrev ItemDb (T : Type*) := List (IntervalItem T)

namespace ItemDb

variable {T : Type*} [LinearOrder T] [Add T] [Sub T] [One T]

/-- `interval_t::is_sane`. -/
def IsSane : ItemDb T → Prop
  | [] => True
  | [cur] => cur.min_val ≤ cur.max_val
  | prev :: cur :: rest =>
    prev.min_val ≤ prev.max_val ∧ prev.max_val < cur.min_val ∧
      prev.max_val + 1 < cur.min_val ∧ IsSane (cur :: rest)

instance decidableIsSane : ∀ db : ItemDb T, Decidable (IsSane db)
  | [] => inferInstanceAs (Decidable True)
  | [cur] => inferInstanceAs (Decidable (cur.min_val ≤ cur.max_val))
  | prev :: cur :: rest =>
    haveI := decidableIsSane (cur :: rest)
    inferInstanceAs (Decidable (prev.min_val ≤ prev.max_val ∧ prev.max_val < cur.min_val ∧
      prev.max_val + 1 < cur.min_val ∧ IsSane (cur :: rest)))

/-- The second and third pass of `operator +=`: unify every item which touches
`base` into it, and insert it. -/
def absorb (base : IntervalItem T) : ItemDb T → ItemDb T
  | [] => [base]
  | iter :: rest =>
    if base.max_val ≥ iter.min_val || base.isContiguous iter then absorb (base.unify iter) rest
    else base :: iter :: rest

/-- `interval_t::operator +=` of an item. -/
def addItem (base : IntervalItem T) : ItemDb T → ItemDb T
  | [] => [base]
  | iter :: rest =>
    if base.min_val > iter.max_val && !base.isContiguous iter then iter :: addItem base rest
    else absorb base (iter :: rest)

/-- What is left of the item `temp` once `base` is removed from it: the part less
than `base`, if any, and the part greater than `base`, if any. -/
def cut (base temp : IntervalItem T) : ItemDb T :=
  (if temp.min_val < base.min_val then [⟨temp.min_val, base.min_val - 1⟩] else []) ++
    (if base.max_val < temp.max_val then [⟨base.max_val + 1, temp.max_val⟩] else [])

/-- The second pass of `operator -=`: cut `base` out of every item it meets. -/
def exclude (base : IntervalItem T) : ItemDb T → ItemDb T
  | [] => []
  | temp :: rest =>
    if base.max_val ≥ temp.min_val then cut base temp ++ exclude base rest
    else temp :: rest

/-- `interval_t::operator -=` of an item. -/
def subItem (base : IntervalItem T) : ItemDb T → ItemDb T
  | [] => []
  | iter :: rest =>
    if base.min_val > iter.max_val then iter :: subItem base rest
    else exclude base (iter :: rest)

/-- `interval_t::operator +=` of an interval. -/
def add (db other : ItemDb T) : ItemDb T := other.foldl (fun acc item => addItem item acc) db

/-- `interval_t::operator -=` of an interval. -/
def sub (db other : ItemDb T) : ItemDb T := other.foldl (fun acc item => subItem item acc) db

/-- The set an item list denotes. -/
def Mem (x : T) (db : ItemDb T) : Prop := ∃ it ∈ db, it.min_val ≤ x ∧ x ≤ it.max_val

end ItemDb

/-! ### Sanity and set semantics over byte offsets -/

namespace ItemDb

variable {db : ItemDb ℕ} {base it : IntervalItem ℕ} {x m : ℕ}

@[simp] theorem mem_nil : ¬ Mem x ([] : ItemDb ℕ) := by simp [Mem]

@[simp] theorem mem_cons : Mem x (it :: db) ↔ (it.min_val ≤ x ∧ x ≤ it.max_val) ∨ Mem x db := by
  simp [Mem]

theorem mem_append {db' : ItemDb ℕ} : Mem x (db ++ db') ↔ Mem x db ∨ Mem x db' := by
  simp [Mem, or_and_right, exists_or]

/-- Sanity unfolded at the head: the item is non empty and lies strictly before
all the others, with a hole in between. -/
theorem isSane_cons : IsSane (it :: db) ↔
    it.min_val ≤ it.max_val ∧ (∀ b ∈ db, it.max_val + 1 < b.min_val) ∧ IsSane db := by
  induction db generalizing it with
  | nil => simp [IsSane]
  | cons cur rest ih =>
    rw [IsSane, ih]
    constructor
    · rintro ⟨h, -, hlt, hcur, hall, hrest⟩
      refine ⟨h, ?_, hcur, hall, hrest⟩
      rintro b (_ | ⟨_, hb⟩)
      · exact hlt
      · have := hall b hb
        omega
    · rintro ⟨h, hall, hcur, hall', hrest⟩
      have := hall cur List.mem_cons_self
      exact ⟨h, by omega, this, hcur, hall', hrest⟩

theorem IsSane.le (h : IsSane db) (hit : it ∈ db) : it.min_val ≤ it.max_val := by
  induction db with
  | nil => cases hit
  | cons cur rest ih =>
    obtain ⟨hcur, -, hrest⟩ := isSane_cons.1 h
    rcases List.mem_cons.1 hit with rfl | hit
    · exact hcur
    · exact ih hrest hit

theorem isContiguous_iff : base.isContiguous it = true ↔
    base.max_val + 1 = it.min_val ∨ base.min_val = it.max_val + 1 := by
  unfold IntervalItem.isContiguous
  split_ifs <;> simp_all

theorem unify_min : (base.unify it).min_val = min base.min_val it.min_val := by
  unfold IntervalItem.unify
  split_ifs <;> simp only [] <;> omega

theorem unify_max : (base.unify it).max_val = max base.max_val it.max_val := by
  unfold IntervalItem.unify
  split_ifs <;> simp only [] <;> omega

/-- What `absorb` leaves: a sane list, denoting the union, all of it above any
lower bound of its arguments. -/
theorem absorb_spec (h : IsSane db) (hbase : base.min_val ≤ base.max_val)
    (hfirst : ∀ b ∈ db, base.min_val ≤ b.max_val + 1) :
    IsSane (absorb base db) ∧
      (∀ x, Mem x (absorb base db) ↔ (base.min_val ≤ x ∧ x ≤ base.max_val) ∨ Mem x db) ∧
      (∀ m, m < base.min_val → (∀ b ∈ db, m < b.min_val) →
        ∀ b ∈ absorb base db, m < b.min_val) := by
  induction db generalizing base with
  | nil => simp [absorb, IsSane, hbase]
  | cons iter rest ih =>
    obtain ⟨hiter, hall, hrest⟩ := isSane_cons.1 h
    have hle := hfirst iter List.mem_cons_self
    rw [absorb]
    split_ifs with hc
    · -- `iter` touches `base`: both become one item
      have htouch : iter.min_val ≤ base.max_val + 1 := by
        simp only [Bool.or_eq_true, decide_eq_true_eq, isContiguous_iff] at hc
        omega
      have hu : (base.unify iter).min_val ≤ (base.unify iter).max_val := by
        rw [unify_min, unify_max]; omega
      have hfirst' : ∀ b ∈ rest, (base.unify iter).min_val ≤ b.max_val + 1 := by
        intro b hb
        have := hfirst b (List.mem_cons_of_mem _ hb)
        rw [unify_min]; omega
      obtain ⟨hs, hm, hlow⟩ := ih hrest hu hfirst'
      refine ⟨hs, ?_, ?_⟩
      · intro x
        rw [hm, mem_cons, unify_min, unify_max, ← or_assoc]
        refine or_congr_left ?_
        omega
      · intro m hm hb
        refine hlow m ?_ fun b hb' => hb b (List.mem_cons_of_mem _ hb')
        have := hb iter List.mem_cons_self
        rw [unify_min]; omega
    · -- a hole is left before `iter`
      simp only [Bool.or_eq_true, decide_eq_true_eq, isContiguous_iff] at hc
      have hlt : base.max_val + 1 < iter.min_val := by omega
      refine ⟨isSane_cons.2 ⟨hbase, ?_, h⟩, fun x => mem_cons, ?_⟩
      · rintro b (_ | ⟨_, hb⟩)
        · exact hlt
        · have := hall b hb
          omega
      · rintro m hm hb b (_ | ⟨_, hb'⟩)
        · exact hm
        · exact hb b hb'

theorem addItem_spec (h : IsSane db) (hbase : base.min_val ≤ base.max_val) :
    IsSane (addItem base db) ∧
      (∀ x, Mem x (addItem base db) ↔ (base.min_val ≤ x ∧ x ≤ base.max_val) ∨ Mem x db) ∧
      (∀ m, m < base.min_val → (∀ b ∈ db, m < b.min_val) →
        ∀ b ∈ addItem base db, m < b.min_val) := by
  induction db with
  | nil => simp [addItem, IsSane, hbase]
  | cons iter rest ih =>
    obtain ⟨hiter, hall, hrest⟩ := isSane_cons.1 h
    rw [addItem]
    split_ifs with hc
    · -- `iter` lies before `base`, with a hole in between: it stays as it is
      simp only [Bool.and_eq_true, decide_eq_true_eq, Bool.not_eq_true',
        Bool.eq_false_iff, ne_eq, isContiguous_iff] at hc
      obtain ⟨hs, hm, hlow⟩ := ih hrest
      refine ⟨isSane_cons.2 ⟨hiter, hlow _ (by omega) hall, hs⟩, ?_, ?_⟩
      · intro x
        rw [mem_cons, hm, mem_cons]
        tauto
      · rintro m hm hb b (_ | ⟨_, hb'⟩)
        · exact hb iter List.mem_cons_self
        · exact hlow m hm (fun b hb'' => hb b (List.mem_cons_of_mem _ hb'')) b hb'
    · refine absorb_spec h hbase ?_
      simp only [Bool.and_eq_true, decide_eq_true_eq, Bool.not_eq_true',
        Bool.eq_false_iff, ne_eq, isContiguous_iff] at hc
      have hle : base.min_val ≤ iter.max_val + 1 := by omega
      rintro b (_ | ⟨_, hb⟩)
      · exact hle
      · have := hall b hb
        have := hrest.le hb
        omega

theorem isSane_append {db' : ItemDb ℕ} : IsSane (db ++ db') ↔
    IsSane db ∧ IsSane db' ∧ ∀ a ∈ db, ∀ b ∈ db', a.max_val + 1 < b.min_val := by
  induction db with
  | nil => simp [IsSane]
  | cons it rest ih =>
    simp only [List.cons_append, isSane_cons, ih, List.mem_append, List.mem_cons]
    constructor
    · rintro ⟨hit, hall, hs, hs', hsep⟩
      refine ⟨⟨hit, fun b hb => hall b (.inl hb), hs⟩, hs', ?_⟩
      rintro a (rfl | ha) b hb
      · exact hall b (.inr hb)
      · exact hsep a ha b hb
    · rintro ⟨⟨hit, hall, hs⟩, hs', hsep⟩
      refine ⟨hit, ?_, hs, hs', fun a ha => hsep a (.inr ha)⟩
      rintro b (hb | hb)
      · exact hall b hb
      · exact hsep it (.inl rfl) b hb

theorem mem_cut_bounds {b : IntervalItem ℕ} (hb : b ∈ cut base it) (hlo : base.min_val ≤ it.max_val)
    (hhi : it.min_val ≤ base.max_val) : it.min_val ≤ b.min_val ∧ b.max_val ≤ it.max_val := by
  unfold cut at hb
  rcases List.mem_append.1 hb with hb | hb
  · split_ifs at hb
    · rw [List.mem_singleton.1 hb]
      simp only []
      omega
    · cases hb
  · split_ifs at hb
    · rw [List.mem_singleton.1 hb]
      simp only []
      omega
    · cases hb

theorem isSane_cut (hbase : base.min_val ≤ base.max_val) : IsSane (cut base it) := by
  unfold cut
  split_ifs <;> simp only [List.cons_append, List.nil_append, List.append_nil, IsSane] <;> omega

theorem mem_cut (hbase : base.min_val ≤ base.max_val)
    (hlo : base.min_val ≤ it.max_val) (hhi : it.min_val ≤ base.max_val) :
    Mem x (cut base it) ↔
      (it.min_val ≤ x ∧ x ≤ it.max_val) ∧ ¬ (base.min_val ≤ x ∧ x ≤ base.max_val) := by
  unfold cut
  split_ifs <;> simp only [List.cons_append, List.nil_append, List.append_nil, mem_cons,
    mem_nil, or_false, false_iff] <;> omega

/-- What `exclude` leaves: a sane list, denoting the difference, all of it above
any lower bound of the list. -/
theorem exclude_spec (h : IsSane db) (hbase : base.min_val ≤ base.max_val)
    (hfirst : ∀ b ∈ db, base.min_val ≤ b.max_val) :
    IsSane (exclude base db) ∧
      (∀ x, Mem x (exclude base db) ↔ Mem x db ∧ ¬ (base.min_val ≤ x ∧ x ≤ base.max_val)) ∧
      (∀ m, (∀ b ∈ db, m < b.min_val) → ∀ b ∈ exclude base db, m < b.min_val) := by
  induction db with
  | nil => simp [exclude, IsSane]
  | cons temp rest ih =>
    obtain ⟨htemp, hall, hrest⟩ := isSane_cons.1 h
    have hle := hfirst temp List.mem_cons_self
    obtain ⟨hs, hm, hlow⟩ := ih hrest fun b hb => hfirst b (List.mem_cons_of_mem _ hb)
    rw [exclude]
    split_ifs with hc
    · have hbounds : ∀ b ∈ cut base temp, temp.min_val ≤ b.min_val ∧ b.max_val ≤ temp.max_val :=
        fun b hb => mem_cut_bounds hb hle hc
      refine ⟨isSane_append.2 ⟨isSane_cut hbase, hs, ?_⟩, ?_, ?_⟩
      · intro a ha b hb
        have := hlow _ hall b hb
        have := (hbounds a ha).2
        omega
      · intro x
        rw [mem_append, hm, mem_cut hbase hle hc, mem_cons, or_and_right]
      · intro m hb b hb'
        rcases List.mem_append.1 hb' with hb' | hb'
        · have := hb temp List.mem_cons_self
          have := (hbounds b hb').1
          omega
        · exact hlow m (fun b hb'' => hb b (List.mem_cons_of_mem _ hb'')) b hb'
    · -- `temp` and all the others lie after `base`
      refine ⟨h, ?_, fun m hb => hb⟩
      intro x
      refine ⟨fun hx => ⟨hx, ?_⟩, fun hx => hx.1⟩
      rcases mem_cons.1 hx with hx | ⟨b, hb, hx⟩
      · omega
      · have := hall b hb
        omega

theorem subItem_spec (h : IsSane db) (hbase : base.min_val ≤ base.max_val) :
    IsSane (subItem base db) ∧
      (∀ x, Mem x (subItem base db) ↔ Mem x db ∧ ¬ (base.min_val ≤ x ∧ x ≤ base.max_val)) ∧
      (∀ m, (∀ b ∈ db, m < b.min_val) → ∀ b ∈ subItem base db, m < b.min_val) := by
  induction db with
  | nil => simp [subItem, IsSane]
  | cons iter rest ih =>
    obtain ⟨hiter, hall, hrest⟩ := isSane_cons.1 h
    rw [subItem]
    split_ifs with hc
    · obtain ⟨hs, hm, hlow⟩ := ih hrest
      refine ⟨isSane_cons.2 ⟨hiter, hlow _ hall, hs⟩, ?_, ?_⟩
      · intro x
        rw [mem_cons, hm, mem_cons]
        refine ⟨?_, ?_⟩
        · rintro (h | h)
          · exact ⟨.inl h, by omega⟩
          · exact ⟨.inr h.1, h.2⟩
        · rintro ⟨h | h, hn⟩
          · exact .inl h
          · exact .inr ⟨h, hn⟩
      · rintro m hb b (_ | ⟨_, hb'⟩)
        · exact hb iter List.mem_cons_self
        · exact hlow m (fun b hb'' => hb b (List.mem_cons_of_mem _ hb'')) b hb'
    · refine exclude_spec h hbase ?_
      rintro b (_ | ⟨_, hb⟩)
      · omega
      · have := hall b hb
        have := hrest.le hb
        omega

theorem add_spec {other : ItemDb ℕ} (h : IsSane db)
    (hother : ∀ b ∈ other, b.min_val ≤ b.max_val) :
    IsSane (add db other) ∧ ∀ x, Mem x (add db other) ↔ Mem x db ∨ Mem x other := by
  induction other generalizing db with
  | nil => simp [add, h]
  | cons item rest ih =>
    obtain ⟨hs, hm, -⟩ := addItem_spec h (hother item List.mem_cons_self)
    obtain ⟨hs', hm'⟩ := ih hs fun b hb => hother b (List.mem_cons_of_mem _ hb)
    refine ⟨hs', fun x => (hm' x).trans ?_⟩
    rw [hm, mem_cons, or_assoc, or_left_comm]

theorem sub_spec {other : ItemDb ℕ} (h : IsSane db)
    (hother : ∀ b ∈ other, b.min_val ≤ b.max_val) :
    IsSane (sub db other) ∧ ∀ x, Mem x (sub db other) ↔ Mem x db ∧ ¬ Mem x other := by
  induction other generalizing db with
  | nil => simp [sub, h]
  | cons item rest ih =>
    obtain ⟨hs, hm, -⟩ := subItem_spec h (hother item List.mem_cons_self)
    obtain ⟨hs', hm'⟩ := ih hs fun b hb => hother b (List.mem_cons_of_mem _ hb)
    refine ⟨hs', fun x => (hm' x).trans ?_⟩
    rw [hm, mem_cons, not_or, and_assoc]

end ItemDb

/-! ### `file_size_inval_t` -/

/-- `interval_t<file_size_t>`: an item list which passes `is_sane`. -/
structure FileSizeInval where
  item_db : ItemDb ℕ
  sane : ItemDb.IsSane item_db

namespace FileSizeInval

/-- An item of a `FileSizeInval`: one which is not empty, as the constructor of
`interval_item_t` asserts. -/
structure Item extends IntervalItem ℕ where
  le : min_val ≤ max_val

instance : DecidableEq FileSizeInval := fun a b =>
  decidable_of_iff (a.item_db = b.item_db) (by cases a; cases b; simp)

instance : Membership ℕ FileSizeInval := ⟨fun iv x => ItemDb.Mem x iv.item_db⟩

/-- The interval without any item. -/
def null : FileSizeInval := ⟨[], trivial⟩

def isEmpty (iv : FileSizeInval) : Bool := iv.item_db.isEmpty

def addItem (iv : FileSizeInval) (item : Item) : FileSizeInval :=
  ⟨ItemDb.addItem item.toIntervalItem iv.item_db, (ItemDb.addItem_spec iv.sane item.le).1⟩

def subItem (iv : FileSizeInval) (item : Item) : FileSizeInval :=
  ⟨ItemDb.subItem item.toIntervalItem iv.item_db, (ItemDb.subItem_spec iv.sane item.le).1⟩

def add (iv other : FileSizeInval) : FileSizeInval :=
  ⟨ItemDb.add iv.item_db other.item_db,
    (ItemDb.add_spec iv.sane fun _ => other.sane.le).1⟩

def sub (iv other : FileSizeInval) : FileSizeInval :=
  ⟨ItemDb.sub iv.item_db other.item_db,
    (ItemDb.sub_spec iv.sane fun _ => other.sane.le).1⟩

/-- The first item, if there is one. -/
def first? (iv : FileSizeInval) : Option Item :=
  match h : iv.item_db with
  | [] => none
  | it :: _ => some ⟨it, iv.sane.le (by rw [h]; exact List.mem_cons_self)⟩

def ofItem (item : Item) : FileSizeInval := null.addItem item

variable {iv other : FileSizeInval} {item : Item} {x : ℕ}

theorem mem_def : x ∈ iv ↔ ItemDb.Mem x iv.item_db := Iff.rfl

@[simp] theorem not_mem_null : x ∉ null := ItemDb.mem_nil

@[simp] theorem mem_addItem :
    x ∈ iv.addItem item ↔ (item.min_val ≤ x ∧ x ≤ item.max_val) ∨ x ∈ iv :=
  (ItemDb.addItem_spec iv.sane item.le).2.1 x

@[simp] theorem mem_subItem :
    x ∈ iv.subItem item ↔ x ∈ iv ∧ ¬ (item.min_val ≤ x ∧ x ≤ item.max_val) :=
  (ItemDb.subItem_spec iv.sane item.le).2.1 x

@[simp] theorem mem_ofItem : x ∈ ofItem item ↔ item.min_val ≤ x ∧ x ≤ item.max_val := by
  simp [ofItem]

@[simp] theorem mem_add : x ∈ iv.add other ↔ x ∈ iv ∨ x ∈ other :=
  (ItemDb.add_spec iv.sane fun _ => other.sane.le).2 x

@[simp] theorem mem_sub : x ∈ iv.sub other ↔ x ∈ iv ∧ x ∉ other :=
  (ItemDb.sub_spec iv.sane fun _ => other.sane.le).2 x

theorem isEmpty_iff : iv.isEmpty = true ↔ ∀ x, x ∉ iv := by
  obtain ⟨db, hdb⟩ := iv
  cases db with
  | nil => simp [isEmpty, mem_def]
  | cons it db =>
    have hle := hdb.le (List.mem_cons_self (a := it))
    simp only [isEmpty, List.isEmpty_cons, Bool.false_eq_true, false_iff, not_forall, not_not]
    exact ⟨it.min_val, it, List.mem_cons_self, le_refl _, hle⟩

theorem first?_eq_none (h : iv.isEmpty = true) : iv.first? = none := by
  obtain ⟨db, hdb⟩ := iv
  cases db with
  | nil => rfl
  | cons it db => simp [isEmpty] at h

theorem first?_isSome (h : iv.isEmpty = false) : iv.first?.isSome = true := by
  obtain ⟨db, hdb⟩ := iv
  cases db with
  | nil => simp [isEmpty] at h
  | cons it db => rfl

theorem isEmpty_of_first? (h : iv.first? = none) : iv.isEmpty = true := by
  by_contra hne
  rw [Bool.not_eq_true] at hne
  have := first?_isSome hne
  rw [h] at this
  cases this

theorem mem_of_first? (h : iv.first? = some item) (hx : item.min_val ≤ x ∧ x ≤ item.max_val) :
    x ∈ iv := by
  obtain ⟨db, hdb⟩ := iv
  cases db with
  | nil => simp [first?] at h
  | cons it db =>
    simp only [first?, Option.some.injEq] at h
    subst h
    exact ⟨it, List.mem_cons_self, hx⟩

/-- The first item holds the least value. -/
theorem first?_le (h : iv.first? = some item) (hx : x ∈ iv) : item.min_val ≤ x := by
  obtain ⟨db, hdb⟩ := iv
  cases db with
  | nil => simp [first?] at h
  | cons it db =>
    simp only [first?, Option.some.injEq] at h
    subst h
    obtain ⟨hle, hall, -⟩ := ItemDb.isSane_cons.1 hdb
    rcases ItemDb.mem_cons.1 hx with hx | ⟨b, hb, hx⟩
    · exact hx.1
    · have := hall b hb
      simp only []
      omega

end FileSizeInval

end Neoip
