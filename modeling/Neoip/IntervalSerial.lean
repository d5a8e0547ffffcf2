/-
Neoip/IntervalSerial.lean

The serialization of `interval_t`: the number of items as a `uint32_t`, then the
two values of each item.

The values are those of an unsigned type, with any codec of it.  An interval is
unserialized by adding its items one after the other, so what comes out is sane
when the items are, whatever their order; that the two values of an item are in
their order is an assertion of its constructor.

Adding the items of a sane interval in their order gives it back, unless the
last one is contiguous to the first one across the wrap (`MeetsItself`).

Main results: `decodes_iff`, `unserial_serial_iff`.
-/
import Neoip.IntervalRange
import Neoip.SerialCodec

namespace Neoip

/-- Why an unserialization stops: a `serial_except_t`, or an assertion. -/
inductive SerialStop
  | except
  | assert
deriving DecidableEq, Repr

namespace ItemDb

variable {m : ℕ}

/-! ### The items of a sane interval, one after the other -/

section Snoc

variable {db A : ItemDb (Unsigned m)} {a it : IntervalItem (Unsigned m)}

theorem isSane_append_unsigned {db' : ItemDb (Unsigned m)} : IsSane (db ++ db') ↔
    IsSane db ∧ IsSane db' ∧ ∀ a ∈ db, ∀ b ∈ db', (a.max_val : ℕ) + 1 < b.min_val := by
  rw [← isSane_vals, vals_append, isSane_append, isSane_vals, isSane_vals]
  simp only [vals, List.forall_mem_map, IntervalItem.max_val_val, IntervalItem.min_val_val]

theorem isSane_nil : IsSane ([] : ItemDb (Unsigned m)) := isSane_vals.1 trivial

/-- The first and the last item of several are contiguous across the wrap. -/
structure MeetsItself (db : ItemDb (Unsigned m)) : Prop where
  two : 2 ≤ db.length
  zero : ∃ first ∈ db.head?, first.min_val = 0
  last : ∃ last ∈ db.getLast?, last.max_val = Fin.last m

/-- An item after all the others is put after them. -/
theorem addItem_snoc (h : IsSane (db ++ [a]))
    (hwrap : a.max_val = Fin.last m → ∀ it ∈ db.head?, it.min_val ≠ 0) :
    addItem a db = db ++ [a] := by
  induction db with
  | nil => rfl
  | cons iter rest ih =>
    obtain ⟨hdb, ha, hsep⟩ := isSane_append_unsigned.1 h
    obtain ⟨hiter, hall, hrest⟩ := isSane_cons_unsigned.1 hdb
    have hlt := hsep iter List.mem_cons_self a (List.mem_singleton_self a)
    have hskip := (skip_unsigned_iff ha hiter).2 ⟨hlt, fun hboth => hwrap hboth.1 iter rfl hboth.2⟩
    rw [addItem, if_pos hskip, List.cons_append]
    rw [List.cons_append] at h
    congr 1
    refine ih (isSane_cons_unsigned.1 h).2.2 fun _ it hit => ?_
    -- the items after the first one are above it
    exact ne_zero_of_lt_val (hall it (List.mem_of_mem_head? hit))

/-- Across the wrap it takes the whole range. -/
theorem addItem_snoc_wrap (h : IsSane (it :: db ++ [a])) (hzero : it.min_val = 0)
    (hlast : a.max_val = Fin.last m) : addItem a (it :: db) = [⟨0, Fin.last m⟩] := by
  obtain ⟨hdb, ha, -⟩ := isSane_append_unsigned.1 h
  obtain ⟨hit, -, -⟩ := isSane_cons_unsigned.1 hdb
  have hskip : ¬ (a.min_val > it.max_val && !a.isContiguous it) = true := fun hskip =>
    ((skip_unsigned_iff ha hit).1 hskip).2 ⟨hlast, hzero⟩
  have htouch : (a.max_val ≥ it.min_val || a.isContiguous it) = true := by
    rw [Bool.or_eq_true, decide_eq_true_eq, hzero]
    exact .inl (Fin.zero_le _)
  have hunify : a.unify it = ⟨0, Fin.last m⟩ := by
    rw [IntervalItem.unify, hzero, hlast, if_neg (not_lt.2 (Fin.le_last _))]
    congr 1
    split_ifs with hgt
    · rfl
    · exact le_antisymm (not_lt.1 hgt) (Fin.zero_le _)
  rw [addItem, if_neg hskip, absorb, if_pos htouch, hunify, absorb_full]

theorem add_concat (db A : ItemDb (Unsigned m)) (a : IntervalItem (Unsigned m)) :
    add db (A ++ [a]) = addItem a (add db A) := by
  rw [add, List.foldl_append]
  rfl

/-- **The items of a sane interval** make it again, unless it meets itself. -/
theorem add_nil_eq_iff (hA : IsSane A) : add [] A = A ↔ ¬ MeetsItself A := by
  induction A using List.reverseRecOn with
  | nil => exact iff_of_true rfl fun h => nomatch h.two
  | append_singleton B a ih =>
    obtain ⟨hB, -, hsep⟩ := isSane_append_unsigned.1 hA
    -- `B` ends before `a`, so it ends before the largest value
    have hmeet : ¬ MeetsItself B := by
      rintro ⟨-, -, last, hlast, hmax⟩
      have hlt := hsep last (List.mem_of_mem_getLast? hlast) a (List.mem_singleton_self a)
      rw [hmax, Fin.val_last] at hlt
      exact absurd a.min_val.isLt (by omega)
    rw [add_concat, (ih hB).2 hmeet]
    by_cases hwrap : a.max_val = Fin.last m ∧ ∃ it ∈ B.head?, it.min_val = 0
    · obtain ⟨hmax, it, hit, hzero⟩ := hwrap
      obtain ⟨rest, rfl⟩ := List.head?_eq_some_iff.1 hit
      have hlast : (it :: rest ++ [a]).getLast? = some a := List.getLast?_concat
      rw [addItem_snoc_wrap hA hzero hmax]
      refine iff_of_false (fun heq => ?_) (not_not.2 ⟨?_, ⟨it, rfl, hzero⟩, a, hlast, hmax⟩)
      · have hlen := congrArg List.length heq
        simp at hlen
      · simp
    · refine iff_of_true (addItem_snoc hA fun hmax it hit hzero => hwrap ⟨hmax, it, hit, hzero⟩) ?_
      rintro ⟨htwo, ⟨first, hfirst, hzero⟩, last, hlast, hmax⟩
      cases B with
      | nil => exact absurd htwo (Nat.not_succ_le_self 1)
      | cons it rest =>
        rw [List.getLast?_concat, Option.mem_some_iff] at hlast
        exact hwrap ⟨hlast ▸ hmax, first, hfirst, hzero⟩

theorem length_absorb (db : ItemDb (Unsigned m)) (a : IntervalItem (Unsigned m)) :
    (absorb a db).length ≤ db.length + 1 := by
  induction db generalizing a with
  | nil => exact le_refl _
  | cons iter rest ih =>
    rw [absorb]
    split_ifs
    · exact (ih _).trans (Nat.le_succ _)
    · exact le_refl _

theorem length_addItem (db : ItemDb (Unsigned m)) (a : IntervalItem (Unsigned m)) :
    (addItem a db).length ≤ db.length + 1 := by
  induction db with
  | nil => exact le_refl _
  | cons iter rest ih =>
    rw [addItem]
    split_ifs
    · exact Nat.succ_le_succ ih
    · exact length_absorb _ _

theorem length_add (db A : ItemDb (Unsigned m)) : (add db A).length ≤ db.length + A.length := by
  induction A generalizing db with
  | nil => exact le_refl _
  | cons a A ih =>
    have hadd := length_addItem db a
    refine (ih (addItem a db)).trans ?_
    rw [List.length_cons]
    omega

end Snoc

/-! ### Serialization -/

section Serialization

/-- `serial << interval_item_t`. -/
def putItem (c : Codec UInt8 (Unsigned m)) (item : IntervalItem (Unsigned m)) : Datum :=
  c.put item.min_val ++ c.put item.max_val

/-- `serial << interval_t`. -/
def serial (c : Codec UInt8 (Unsigned m)) (interval : ItemDb (Unsigned m)) : Datum :=
  writeUint32 (interval.length % 2 ^ 32) ++ interval.flatMap (putItem c)

/-- `serial >> interval_item_t`. -/
def unserialItem (c : Codec UInt8 (Unsigned m)) (serial : Datum) :
    Except SerialStop (IntervalItem (Unsigned m) × Datum) :=
  match (c.prod c).get serial with
  | none => .error .except
  | some ((min_val, max_val), serial) =>
    if min_val ≤ max_val then .ok (⟨min_val, max_val⟩, serial) else .error .assert

/-- The loop of `serial >> interval_t`. -/
def unserialItems (c : Codec UInt8 (Unsigned m)) :
    ℕ → ItemDb (Unsigned m) → Datum → Except SerialStop (ItemDb (Unsigned m) × Datum)
  | 0, interval, serial => .ok (interval, serial)
  | n + 1, interval, serial =>
    match unserialItem c serial with
    | .error stop => .error stop
    | .ok (item, serial) => unserialItems c n (addItem item interval) serial

/-- `serial >> interval_t`. -/
def unserial (c : Codec UInt8 (Unsigned m)) (serial : Datum) :
    Except SerialStop (ItemDb (Unsigned m) × Datum) :=
  match readUint32 serial with
  | none => .error .except
  | some (nb_elem, serial) => unserialItems c nb_elem [] serial

/-- The values of the items, up to the first which is cut. -/
def bounds (c : Codec UInt8 (Unsigned m)) : ℕ → Datum → List (Unsigned m × Unsigned m)
  | 0, _ => []
  | n + 1, serial =>
    match (c.prod c).get serial with
    | none => []
    | some (item, serial) => item :: bounds c n serial

/-- An error is raised, or the interval is sane. -/
def Decodes (result : Except SerialStop (ItemDb (Unsigned m) × Datum)) : Prop :=
  result = .error .except ∨ ∃ interval rest, result = .ok (interval, rest) ∧ IsSane interval

variable {c : Codec UInt8 (Unsigned m)} {db : ItemDb (Unsigned m)}

theorem decodes_unserialItems_iff (h : IsSane db) (n : ℕ) (serial : Datum) :
    Decodes (unserialItems c n db serial) ↔ ∀ item ∈ bounds c n serial, item.1 ≤ item.2 := by
  induction n generalizing db serial with
  | zero => exact iff_of_true (.inr ⟨db, serial, rfl, h⟩) nofun
  | succ n ih =>
    rw [unserialItems, unserialItem, bounds]
    rcases (c.prod c).get serial with - | ⟨⟨min_val, max_val⟩, rest⟩
    · exact iff_of_true (.inl rfl) nofun
    · dsimp only
      rw [List.forall_mem_cons]
      by_cases hle : min_val ≤ max_val
      · rw [if_pos hle, and_iff_right hle]
        exact ih (isSane_addItem h hle) rest
      · rw [if_neg hle]
        refine iff_of_false ?_ fun hall => hle hall.1
        rintro (heq | ⟨interval, rest', heq, -⟩)
        · cases heq
        · cases heq

/-- **Decoding any bytes** raises an error or gives a sane interval exactly when the values of
every item which is read are in their order. -/
theorem decodes_iff (serial : Datum) :
    Decodes (unserial c serial) ↔
      ∀ nb_elem rest, readUint32 serial = some (nb_elem, rest) →
        ∀ item ∈ bounds c nb_elem rest, item.1 ≤ item.2 := by
  rw [unserial]
  rcases hread : readUint32 serial with - | ⟨nb_elem, rest⟩
  · exact iff_of_true (.inl rfl) nofun
  · refine (decodes_unserialItems_iff isSane_nil nb_elem rest).trans ?_
    constructor
    · rintro h nb_elem' rest' heq
      cases heq
      exact h
    · exact fun h => h nb_elem rest rfl

theorem unserialItems_put {A : ItemDb (Unsigned m)} (hA : ∀ it ∈ A, it.min_val ≤ it.max_val)
    (rest : Datum) :
    unserialItems c A.length db (A.flatMap (putItem c) ++ rest) = .ok (add db A, rest) := by
  induction A generalizing db with
  | nil => rfl
  | cons a A ih =>
    have hget : (c.prod c).get (putItem c a ++ (A.flatMap (putItem c) ++ rest)) =
        some ((a.min_val, a.max_val), A.flatMap (putItem c) ++ rest) :=
      (c.prod c).get_put (a.min_val, a.max_val) _
    rw [List.flatMap_cons, List.append_assoc, List.length_cons, unserialItems, unserialItem, hget]
    dsimp only
    rw [if_pos (hA a List.mem_cons_self)]
    exact ih fun it hit => hA it (List.mem_cons_of_mem _ hit)

/-- **Round trip**: a sane interval is read back exactly when the number of its items fits in the
`uint32_t`, and it does not meet itself. -/
theorem unserial_serial_iff {A : ItemDb (Unsigned m)} (hA : IsSane A) :
    (∀ rest, unserial c (serial c A ++ rest) = .ok (A, rest)) ↔
      A.length < 2 ^ 32 ∧ ¬ MeetsItself A := by
  have hread : ∀ rest, unserial c (serial c A ++ rest) =
      .ok (add [] (A.take (A.length % 2 ^ 32)),
        (A.drop (A.length % 2 ^ 32)).flatMap (putItem c) ++ rest) := by
    intro rest
    have hlen : (A.take (A.length % 2 ^ 32)).length = A.length % 2 ^ 32 := by
      rw [List.length_take]
      exact Nat.min_eq_left (Nat.mod_le _ _)
    have hitems : A.flatMap (putItem c) = (A.take (A.length % 2 ^ 32)).flatMap (putItem c) ++
        (A.drop (A.length % 2 ^ 32)).flatMap (putItem c) := by
      rw [← List.flatMap_append, List.take_append_drop]
    have hput := @unserialItems_put m c [] (A.take (A.length % 2 ^ 32))
      (fun it hit => hA.le_unsigned (List.mem_of_mem_take hit))
      ((A.drop (A.length % 2 ^ 32)).flatMap (putItem c) ++ rest)
    rw [hlen] at hput
    rw [unserial, serial, List.append_assoc,
      readUint32_writeUint32 (Nat.mod_lt _ (Nat.two_pow_pos 32)), hitems, List.append_assoc]
    exact hput
  by_cases hlen : A.length < 2 ^ 32
  · rw [and_iff_right hlen, ← add_nil_eq_iff hA]
    rw [Nat.mod_eq_of_lt hlen, List.take_length, List.drop_length] at hread
    constructor
    · intro h
      have heq := (hread []).symm.trans (h [])
      simp only [Except.ok.injEq, Prod.mk.injEq] at heq
      exact heq.1
    · intro heq rest
      rw [hread rest, heq]
      rfl
  · refine iff_of_false (fun h => ?_) fun h => hlen h.1
    have heq := (hread []).symm.trans (h [])
    simp only [Except.ok.injEq, Prod.mk.injEq] at heq
    -- as many items are read as were counted, at most
    have hshort := length_add [] (A.take (A.length % 2 ^ 32))
    rw [heq.1, List.length_take, List.length_nil] at hshort
    have hmod := Nat.mod_lt A.length (Nat.two_pow_pos 32)
    omega

/-- The intervals which there are. -/
abbrev Interval (m : ℕ) := { db : ItemDb (Unsigned m) // IsSane db }

/-- **The codec of an interval**: any bytes raise an error or give a sane interval, and a sane
interval is read back, exactly when the items of the bytes are in their order, the number of
items of the interval fits, and it does not meet itself. -/
theorem codec_iff (c : Codec UInt8 (Unsigned m)) (word : Datum) (A : Interval m) :
    (Decodes (unserial c word) ∧ ∀ rest, unserial c (serial c A.1 ++ rest) = .ok (A.1, rest)) ↔
      (∀ nb_elem rest, readUint32 word = some (nb_elem, rest) →
          ∀ item ∈ bounds c nb_elem rest, item.1 ≤ item.2) ∧
        A.1.length < 2 ^ 32 ∧ ¬ MeetsItself A.1 :=
  and_congr (decodes_iff word) (unserial_serial_iff A.2)

/-- The values of an `interval_t<uint32_t>`. -/
def uint32Codec : Codec UInt8 (Unsigned (2 ^ 32 - 1)) := Codec.uint32

/-- An item from 5 to 3, and the interval of the least and the largest value. -/
theorem not_codec :
    ¬ Decodes (unserial uint32Codec [0, 0, 0, 1, 0, 0, 0, 5, 0, 0, 0, 3]) ∧
      IsSane [(⟨0, 0⟩ : IntervalItem (Unsigned (2 ^ 32 - 1))), ⟨Fin.last _, Fin.last _⟩] ∧
        unserial uint32Codec (serial uint32Codec [⟨0, 0⟩, ⟨Fin.last _, Fin.last _⟩]) =
          .ok ([⟨0, Fin.last _⟩], []) := by
  refine ⟨?_, ?_, ?_⟩
  · have hassert : unserial uint32Codec [0, 0, 0, 1, 0, 0, 0, 5, 0, 0, 0, 3] = .error .assert := rfl
    rw [hassert]
    rintro (heq | ⟨interval, rest, heq, -⟩)
    · cases heq
    · cases heq
  · decide +kernel
  · decide +kernel

end Serialization

end ItemDb

end Neoip
