/-
Neoip/Mlist.lean

Intrusive lists: `mlist_head_t`, `mlist_item_t`, `mlist_iter_t`.

The memory has any number of heads and of items, and each of their fields is a
function of the address.  An item has its links in itself, and keeps them when
it is removed.  What leads to an item is in its neighbours, and in the head for
the first and the last item.

The model is a list of items with their objects for each head.  `Refines` says
that the memory has it, and each operation keeps that (`Refines.pushFront`,
`Refines.remove`): an item is in one list at most, so that what is written for
one head is not read for another.

Main result: `mlist_run`.
-/
import Neoip.Linked
import Neoip.Run

namespace Neoip

open Linked

variable {H I O : Type*}

/-! ### The memory -/

/-- The fields of `mlist_head_t` and `mlist_item_t`, by the addresses of heads and items. -/
structure Mlist (H I O : Type*) where
  count : H → ℕ
  first : H → Option I
  last : H → Option I
  head : I → Option H
  object : I → Option O
  prev : I → Option I
  next : I → Option I

namespace Mlist

/-- All heads and items as they are constructed. -/
def init : Mlist H I O where
  count _ := 0
  first _ := none
  last _ := none
  head _ := none
  object _ := none
  prev _ := none
  next _ := none

/-- `mlist_item_t::is_null`. -/
def isNull (m : Mlist H I O) (item : I) : Bool := (m.head item).isNone && (m.object item).isNone

/-! ### The operations -/

section Operations

variable [DecidableEq H] [DecidableEq I]

def setCount (m : Mlist H I O) (h : H) (count : ℕ) : Mlist H I O :=
  { m with count := Function.update m.count h count }

def setFirst (m : Mlist H I O) (h : H) (first : Option I) : Mlist H I O :=
  { m with first := Function.update m.first h first }

def setLast (m : Mlist H I O) (h : H) (last : Option I) : Mlist H I O :=
  { m with last := Function.update m.last h last }

def setHead (m : Mlist H I O) (item : I) (head : Option H) : Mlist H I O :=
  { m with head := Function.update m.head item head }

def setObject (m : Mlist H I O) (item : I) (object : Option O) : Mlist H I O :=
  { m with object := Function.update m.object item object }

def setPrev (m : Mlist H I O) (item : I) (prev : Option I) : Mlist H I O :=
  { m with prev := Function.update m.prev item prev }

def setNext (m : Mlist H I O) (item : I) (next : Option I) : Mlist H I O :=
  { m with next := Function.update m.next item next }

def pushFront (m : Mlist H I O) (h : H) (item : I) (object : Option O) : Mlist H I O :=
  let m := m.setCount h (m.count h + 1)
  let m := (m.setHead item (some h)).setObject item object
  -- handle the next case
  let m := m.setNext item (m.first h)
  let m := m.setFirst h (some item)
  let m := match m.next item with
    | some next => m.setPrev next (some item)
    | none => m
  -- handle the prev case
  let m := m.setPrev item none
  if m.last h = none then m.setLast h (some item) else m

def remove (m : Mlist H I O) (h : H) (item : I) : Mlist H I O :=
  let m := m.setCount h (m.count h - 1)
  -- handle the item.next case
  let m := match m.next item with
    | some next => m.setPrev next (m.prev item)
    | none => m.setLast h (m.prev item)
  -- handle the item.prev case
  let m := match m.prev item with
    | some prev => m.setNext prev (m.next item)
    | none => m.setFirst h (m.next item)
  (m.setHead item none).setObject item none

end Operations

/-- `find`, from an iterator on, when the fuel is enough; none inside is `end()`. -/
def findFrom [DecidableEq O] (m : Mlist H I O) (object : Option O) :
    ℕ → Option I → Option (Option I)
  | 0, _ => none
  | _ + 1, none => some none
  | fuel + 1, some iter =>
    if object = m.object iter then some (some iter)
    else findFrom m object fuel (m.next iter)

def find [DecidableEq O] (m : Mlist H I O) (h : H) (object : Option O) (fuel : ℕ) :
    Option (Option I) := m.findFrom object fuel (m.first h)

/-! ### What the operations write -/

section Writes

variable [DecidableEq H] [DecidableEq I] (m : Mlist H I O) (h : H) (i : I) (o : Option O)

/-- What `push_front` leaves. -/
theorem pushFront_eq : m.pushFront h i o = {
    count := Function.update m.count h (m.count h + 1)
    first := Function.update m.first h (some i)
    last := if m.last h = none then Function.update m.last h (some i) else m.last
    head := Function.update m.head i (some h)
    object := Function.update m.object i o
    prev := Function.update
      ((m.first h).elim m.prev fun f => Function.update m.prev f (some i)) i none
    next := Function.update m.next i (m.first h) } := by
  have hnext : Function.update m.next i (m.first h) i = m.first h := Function.update_self _ _ _
  simp only [pushFront, setCount, setHead, setObject, setNext, setFirst, hnext]
  cases m.first h with
  | none => by_cases hlast : m.last h = none <;> simp [setPrev, setLast, hlast]
  | some f => by_cases hlast : m.last h = none <;> simp [setPrev, setLast, hlast]

/-- What `remove` leaves of an item which is not linked to itself. -/
theorem remove_eq (hne : m.next i ≠ some i) : m.remove h i = {
    count := Function.update m.count h (m.count h - 1)
    first := (m.prev i).elim (Function.update m.first h (m.next i)) fun _ => m.first
    last := (m.next i).elim (Function.update m.last h (m.prev i)) fun _ => m.last
    head := Function.update m.head i none
    object := Function.update m.object i none
    prev := (m.next i).elim m.prev fun n => Function.update m.prev n (m.prev i)
    next := (m.prev i).elim m.next fun p => Function.update m.next p (m.next i) } := by
  simp only [remove, setCount]
  cases hnext : m.next i with
  | none =>
    simp only [setLast, hnext]
    cases m.prev i with
    | none => rfl
    | some p => rfl
  | some n =>
    have hprev : Function.update m.prev n (m.prev i) i = m.prev i :=
      Function.update_of_ne (fun heq => hne (by rw [hnext, ← heq])) _ _
    simp only [setPrev, hprev, hnext]
    cases m.prev i with
    | none => rfl
    | some p => rfl

end Writes

/-! ### The model -/

/-- The items of each head with their objects. -/
abbrev Seqs (H I O : Type*) := H → List (I × Option O)

/-- The items of a head. -/
def ids (seqs : Seqs H I O) (h : H) : List I := (seqs h).map Prod.fst

/-- The memory has these items in these orders. -/
structure Refines (m : Mlist H I O) (seqs : Seqs H I O) : Prop where
  next : ∀ h, Chain m.next (m.first h) (ids seqs h) none
  prev : ∀ h, Chain m.prev (m.last h) (ids seqs h).reverse none
  count : ∀ h, m.count h = (seqs h).length
  head : ∀ h, ∀ i ∈ ids seqs h, m.head i = some h
  object : ∀ h, ∀ x ∈ seqs h, m.object x.1 = x.2
  nodup : ∀ h, (ids seqs h).Nodup
  null : ∀ i, (∀ h, i ∉ ids seqs h) → m.isNull i = true

variable {m : Mlist H I O} {seqs : Seqs H I O} {h k : H} {i j : I} {o : Option O}

theorem refines_init : Refines (init : Mlist H I O) fun _ => [] where
  next _ := rfl
  prev _ := rfl
  count _ := rfl
  head _ _ hi := absurd hi List.not_mem_nil
  object _ _ hx := absurd hx List.not_mem_nil
  nodup _ := List.nodup_nil
  null _ _ := rfl

/-- An item is in one list at most. -/
theorem Refines.eq_of_mem (hm : Refines m seqs) (hi : i ∈ ids seqs h) (hi' : i ∈ ids seqs k) :
    h = k := Option.some.inj ((hm.head h i hi).symm.trans (hm.head k i hi'))

theorem Refines.ne_of_mem (hm : Refines m seqs) (hi : i ∈ ids seqs h) (hj : j ∈ ids seqs k)
    (hne : k ≠ h) : j ≠ i := fun heq => hne (hm.eq_of_mem hj (heq ▸ hi))

theorem Refines.first_eq (hm : Refines m seqs) (h : H) : m.first h = (ids seqs h).head? :=
  (hm.next h).head?_eq.symm

theorem Refines.last_eq (hm : Refines m seqs) (h : H) : m.last h = (ids seqs h).getLast? := by
  rw [← List.head?_reverse]
  exact (hm.prev h).head?_eq.symm

theorem Refines.first_mem (hm : Refines m seqs) (hfirst : m.first h = some i) : i ∈ ids seqs h :=
  List.mem_of_head? ((hm.first_eq h).symm.trans hfirst)

/-- The neighbours of an item. -/
theorem Refines.next_eq (hm : Refines m seqs) {a b : List I} (hids : ids seqs h = a ++ i :: b) :
    m.next i = b.head? := by
  have hchain := hm.next h
  rw [hids, chain_append] at hchain
  obtain ⟨t, -, -, hb⟩ := hchain
  exact hb.head?_eq.symm

theorem Refines.prev_eq (hm : Refines m seqs) {a b : List I} (hids : ids seqs h = a ++ i :: b) :
    m.prev i = a.getLast? := by
  have hchain := hm.prev h
  rw [hids, List.reverse_append, List.reverse_cons, List.append_assoc, List.singleton_append,
    chain_append] at hchain
  obtain ⟨t, -, -, ha⟩ := hchain
  rw [← List.head?_reverse]
  exact ha.head?_eq.symm

section Steps

variable [DecidableEq H]

/-! ### Pushing an item -/

/-- The item before the other ones of its head. -/
def push (seqs : Seqs H I O) (h : H) (i : I) (o : Option O) : Seqs H I O :=
  Function.update seqs h ((i, o) :: seqs h)

theorem ids_push_self : ids (push seqs h i o) h = i :: ids seqs h := by
  rw [ids, push, Function.update_self]
  rfl

theorem ids_push_of_ne (hne : k ≠ h) : ids (push seqs h i o) k = ids seqs k := by
  rw [ids, push, Function.update_of_ne hne]
  rfl

variable [DecidableEq I]

theorem Refines.next_pushFront (hm : Refines m seqs) (hi : ∀ k, i ∉ ids seqs k) (k : H) :
    Chain (m.pushFront h i o).next ((m.pushFront h i o).first k) (ids (push seqs h i o) k) none := by
  simp only [pushFront_eq]
  by_cases hk : k = h
  · rw [hk, ids_push_self, chain_cons, Function.update_self, Function.update_self]
    exact ⟨rfl, (chain_update_of_notMem (hi h)).2 (hm.next h)⟩
  · rw [ids_push_of_ne hk, Function.update_of_ne hk]
    exact (chain_update_of_notMem (hi k)).2 (hm.next k)

omit [DecidableEq H] in
/-- The links back of another head are not written. -/
theorem Refines.elim_prev_of_mem (hm : Refines m seqs) (hne : k ≠ h) {t : Option I}
    (hj : j ∈ ids seqs k) :
    ((m.first h).elim m.prev fun f => Function.update m.prev f t) j = m.prev j := by
  cases hfirst : m.first h with
  | none => rfl
  | some f => exact Function.update_of_ne (hm.ne_of_mem (hm.first_mem hfirst) hj hne) _ _

theorem Refines.prev_pushFront (hm : Refines m seqs) (hi : ∀ k, i ∉ ids seqs k) (k : H) :
    Chain (m.pushFront h i o).prev ((m.pushFront h i o).last k)
      (ids (push seqs h i o) k).reverse none := by
  have hchain := hm.prev k
  simp only [pushFront_eq]
  by_cases hk : k = h
  · subst hk
    rw [ids_push_self, List.reverse_cons, chain_concat]
    refine ⟨?_, Function.update_self _ _ _⟩
    refine (chain_update_of_notMem (fun hmem => hi k (List.mem_reverse.1 hmem))).2 ?_
    have hfirst := hm.first_eq k
    have hlast := hm.last_eq k
    have hnodup := hm.nodup k
    cases hids : ids seqs k with
    | nil =>
      rw [hids, List.getLast?_nil] at hlast
      rw [if_pos hlast, Function.update_self]
      exact rfl
    | cons f l =>
      rw [hids] at hfirst hlast hchain hnodup
      have hne : m.last k ≠ none := by
        rw [hlast]
        exact fun hnone => List.cons_ne_nil f l (List.getLast?_eq_none_iff.1 hnone)
      rw [List.reverse_cons, chain_concat] at hchain ⊢
      rw [if_neg hne, hfirst]
      refine ⟨?_, Function.update_self _ _ _⟩
      have hf : f ∉ l.reverse := fun hmem => (List.nodup_cons.1 hnodup).1 (List.mem_reverse.1 hmem)
      exact (chain_update_of_notMem hf).2 hchain.1
  · have hlast : (if m.last h = none then Function.update m.last h (some i) else m.last) k =
        m.last k := by
      split_ifs
      · exact Function.update_of_ne hk _ _
      · rfl
    rw [ids_push_of_ne hk, hlast]
    refine (chain_update_of_notMem (fun hmem => hi k (List.mem_reverse.1 hmem))).2 ?_
    exact (chain_congr fun j hj => hm.elim_prev_of_mem hk (List.mem_reverse.1 hj)).2 hchain

omit [DecidableEq I] in
theorem mem_ids_push : j ∈ ids (push seqs h i o) k ↔ j = i ∧ k = h ∨ j ∈ ids seqs k := by
  by_cases hk : k = h
  · rw [hk, ids_push_self, List.mem_cons, and_iff_left rfl]
  · rw [ids_push_of_ne hk, or_iff_right fun hc => hk hc.2]

theorem Refines.pushFront (hm : Refines m seqs) (hi : ∀ k, i ∉ ids seqs k) :
    Refines (m.pushFront h i o) (push seqs h i o) where
  next := hm.next_pushFront hi
  prev := hm.prev_pushFront hi
  count k := by
    simp only [pushFront_eq, push]
    by_cases hk : k = h
    · rw [hk, Function.update_self, Function.update_self, hm.count, List.length_cons]
    · rw [Function.update_of_ne hk, Function.update_of_ne hk, hm.count]
  head k j hj := by
    simp only [pushFront_eq]
    rcases mem_ids_push.1 hj with ⟨rfl, rfl⟩ | hj
    · exact Function.update_self _ _ _
    · rw [Function.update_of_ne (ne_of_mem_of_not_mem hj (hi k)), hm.head k j hj]
  object k x hx := by
    simp only [pushFront_eq]
    by_cases hxi : x.1 = i
    · have hmem : x.1 ∈ ids (push seqs h i o) k := List.mem_map_of_mem hx
      rcases mem_ids_push.1 hmem with ⟨-, rfl⟩ | hmem
      · rw [push, Function.update_self, List.mem_cons] at hx
        rcases hx with rfl | hx
        · exact Function.update_self _ _ _
        · exact absurd (hxi ▸ List.mem_map_of_mem hx) (hi k)
      · exact absurd (hxi ▸ hmem) (hi k)
    · rw [Function.update_of_ne hxi]
      by_cases hk : k = h
      · rw [hk, push, Function.update_self, List.mem_cons] at hx
        exact hm.object h x (hx.resolve_left fun heq => hxi (congrArg Prod.fst heq))
      · rw [push, Function.update_of_ne hk] at hx
        exact hm.object k x hx
  nodup k := by
    by_cases hk : k = h
    · rw [hk, ids_push_self]
      exact List.nodup_cons.2 ⟨hi h, hm.nodup h⟩
    · rw [ids_push_of_ne hk]
      exact hm.nodup k
  null j hj := by
    have hji : j ≠ i := fun heq => hj h (mem_ids_push.2 (Or.inl ⟨heq, rfl⟩))
    have hnull := hm.null j fun k hmem => hj k (mem_ids_push.2 (Or.inr hmem))
    simp only [isNull, pushFront_eq, Function.update_of_ne hji]
    exact hnull

/-! ### Removing an item -/

/-- The items of a head without this one. -/
def drop (seqs : Seqs H I O) (h : H) (i : I) : Seqs H I O :=
  Function.update seqs h ((seqs h).filter fun x => x.1 ≠ i)

theorem ids_drop_self : ids (drop seqs h i) h = (ids seqs h).filter fun j => j ≠ i := by
  rw [ids, drop, Function.update_self, ids, List.filter_map]
  rfl

theorem ids_drop_of_ne (hne : k ≠ h) : ids (drop seqs h i) k = ids seqs k := by
  rw [ids, drop, Function.update_of_ne hne]
  rfl

theorem mem_ids_drop : j ∈ ids (drop seqs h i) k ↔ j ∈ ids seqs k ∧ ¬ (j = i ∧ k = h) := by
  by_cases hk : k = h
  · rw [hk, ids_drop_self, List.mem_filter, decide_eq_true_iff, and_iff_left rfl]
  · rw [ids_drop_of_ne hk, and_iff_left fun hc => hk hc.2]

/-- The parts of a list around an item are left. -/
theorem filter_ne_eq {a b : List I} (hnodup : (a ++ i :: b).Nodup) :
    (a ++ i :: b).filter (fun j => j ≠ i) = a ++ b := by
  rw [List.nodup_middle, List.nodup_cons, List.mem_append, not_or] at hnodup
  have hkeep : ∀ l : List I, i ∉ l → l.filter (fun j => j ≠ i) = l := fun l hl =>
    List.filter_eq_self.2 fun j hj => decide_eq_true (ne_of_mem_of_not_mem hj hl)
  rw [List.filter_append, List.filter_cons_of_neg (by simp), hkeep a hnodup.1.1, hkeep b hnodup.1.2]

omit [DecidableEq H] [DecidableEq I] in
theorem Refines.next_ne (hm : Refines m seqs) (hi : i ∈ ids seqs h) : m.next i ≠ some i := by
  obtain ⟨a, b, hids⟩ := List.append_of_mem hi
  have hnodup := hm.nodup h
  rw [hids, List.nodup_middle, List.nodup_cons, List.mem_append, not_or] at hnodup
  rw [hm.next_eq hids]
  exact fun hhead => hnodup.1.2 (List.mem_of_head? hhead)

/-- A link of a list which holds `j` is written at its neighbours only. -/
theorem elim_update_of_notMem {f : I → Option I} {t u : Option I} (h : u ≠ some j) :
    (u.elim f fun p => Function.update f p t) j = f j := by
  cases u with
  | none => rfl
  | some p => exact Function.update_of_ne (fun heq => h (congrArg some heq.symm)) _ _

omit [DecidableEq I] in
theorem elim_update_self {f : H → Option I} {t u : Option I} :
    (u.elim (Function.update f h t) fun _ => f) h = u.elim t fun _ => f h := by
  cases u with
  | none => exact Function.update_self _ _ _
  | some p => rfl

omit [DecidableEq I] in
theorem elim_update_of_ne {f : H → Option I} {t u : Option I} (hne : k ≠ h) :
    (u.elim (Function.update f h t) fun _ => f) k = f k := by
  cases u with
  | none => exact Function.update_of_ne hne _ _
  | some p => rfl

omit [DecidableEq H] [DecidableEq I] in
theorem Refines.prev_ne_of_mem (hm : Refines m seqs) (hi : i ∈ ids seqs h) (hj : j ∈ ids seqs k)
    (hne : k ≠ h) : m.prev i ≠ some j := by
  obtain ⟨a, b, hids⟩ := List.append_of_mem hi
  rw [hm.prev_eq hids]
  intro hlast
  refine hne (hm.eq_of_mem ?_ hj).symm
  rw [hids]
  exact List.mem_append_left _ (List.mem_of_getLast? hlast)

omit [DecidableEq H] [DecidableEq I] in
theorem Refines.next_ne_of_mem (hm : Refines m seqs) (hi : i ∈ ids seqs h) (hj : j ∈ ids seqs k)
    (hne : k ≠ h) : m.next i ≠ some j := by
  obtain ⟨a, b, hids⟩ := List.append_of_mem hi
  rw [hm.next_eq hids]
  intro hhead
  refine hne (hm.eq_of_mem ?_ hj).symm
  rw [hids]
  exact List.mem_append_right _ (List.mem_cons_of_mem _ (List.mem_of_head? hhead))

theorem Refines.next_remove (hm : Refines m seqs) (hi : i ∈ ids seqs h) (k : H) :
    Chain (m.remove h i).next ((m.remove h i).first k) (ids (drop seqs h i) k) none := by
  have hchain := hm.next k
  simp only [remove_eq _ _ _ (hm.next_ne hi)]
  by_cases hk : k = h
  · subst hk
    obtain ⟨a, b, hids⟩ := List.append_of_mem hi
    have hnodup := hm.nodup k
    rw [hids] at hchain hnodup
    rw [ids_drop_self, hids, filter_ne_eq hnodup, elim_update_self, hm.prev_eq hids]
    exact hchain.relink hnodup
  · rw [ids_drop_of_ne hk, elim_update_of_ne hk]
    exact (chain_congr fun j hj => elim_update_of_notMem (hm.prev_ne_of_mem hi hj hk)).2 hchain

/-- The other way around, a list is its reverse. -/
theorem Refines.prev_remove (hm : Refines m seqs) (hi : i ∈ ids seqs h) (k : H) :
    Chain (m.remove h i).prev ((m.remove h i).last k) (ids (drop seqs h i) k).reverse none := by
  have hchain := hm.prev k
  simp only [remove_eq _ _ _ (hm.next_ne hi)]
  by_cases hk : k = h
  · subst hk
    obtain ⟨a, b, hids⟩ := List.append_of_mem hi
    have hnodup := hm.nodup k
    have hreverse : (ids seqs k).reverse = b.reverse ++ i :: a.reverse := by
      rw [hids, List.reverse_append, List.reverse_cons, List.append_assoc, List.singleton_append]
    have hnodup' := List.nodup_reverse.2 hnodup
    rw [hreverse] at hchain hnodup'
    rw [hids] at hnodup
    rw [ids_drop_self, hids, filter_ne_eq hnodup, List.reverse_append, elim_update_self,
      hm.next_eq hids, ← List.getLast?_reverse]
    exact hchain.relink hnodup'
  · rw [ids_drop_of_ne hk, elim_update_of_ne hk]
    refine (chain_congr fun j hj => elim_update_of_notMem ?_).2 hchain
    exact hm.next_ne_of_mem hi (List.mem_reverse.1 hj) hk

theorem Refines.remove (hm : Refines m seqs) (hi : i ∈ ids seqs h) :
    Refines (m.remove h i) (drop seqs h i) where
  next := hm.next_remove hi
  prev := hm.prev_remove hi
  count k := by
    have hlen : ∀ k, (seqs k).length = (ids seqs k).length := fun k => (List.length_map _).symm
    have hlen' : (drop seqs h i k).length = (ids (drop seqs h i) k).length := (List.length_map _).symm
    simp only [remove_eq _ _ _ (hm.next_ne hi)]
    rw [hlen']
    by_cases hk : k = h
    · obtain ⟨a, b, hids⟩ := List.append_of_mem hi
      have hnodup := hm.nodup h
      rw [hids] at hnodup
      rw [hk, Function.update_self, hm.count, hlen, ids_drop_self, hids, filter_ne_eq hnodup,
        List.length_append, List.length_append, List.length_cons]
      rfl
    -- the other sequences keep their count, as the item is in none of them
    · rw [Function.update_of_ne hk, hm.count, hlen, ids_drop_of_ne hk]
  head k j hj := by
    obtain ⟨hmem, hne⟩ := mem_ids_drop.1 hj
    have hji : j ≠ i := fun heq => hne ⟨heq, hm.eq_of_mem (heq ▸ hmem) hi⟩
    simp only [remove_eq _ _ _ (hm.next_ne hi), Function.update_of_ne hji]
    exact hm.head k j hmem
  object k x hx := by
    have hmem : x.1 ∈ ids (drop seqs h i) k := List.mem_map_of_mem hx
    obtain ⟨hmem, hne⟩ := mem_ids_drop.1 hmem
    have hxi : x.1 ≠ i := fun heq => hne ⟨heq, hm.eq_of_mem (heq ▸ hmem) hi⟩
    have hx' : x ∈ seqs k := by
      by_cases hk : k = h
      · rw [hk, drop, Function.update_self] at hx
        exact hk ▸ (List.mem_filter.1 hx).1
      · rwa [drop, Function.update_of_ne hk] at hx
    simp only [remove_eq _ _ _ (hm.next_ne hi), Function.update_of_ne hxi]
    exact hm.object k x hx'
  nodup k := by
    by_cases hk : k = h
    · rw [hk, ids_drop_self]
      exact (hm.nodup h).filter _
    · rw [ids_drop_of_ne hk]
      exact hm.nodup k
  null j hj := by
    simp only [isNull, remove_eq _ _ _ (hm.next_ne hi)]
    by_cases hji : j = i
    · rw [hji, Function.update_self, Function.update_self]
      rfl
    · rw [Function.update_of_ne hji, Function.update_of_ne hji]
      exact hm.null j fun k hmem => hj k (mem_ids_drop.2 ⟨hmem, fun hc => hji hc.1⟩)

end Steps

/-! ### Runs -/

section Runs

variable [DecidableEq H] [DecidableEq I]

/-- An operation on a head. -/
inductive Op (H I O : Type*)
  | pushFront (h : H) (item : I) (object : Option O)
  | remove (h : H) (item : I)

def step (m : Mlist H I O) : Op H I O → Mlist H I O
  | .pushFront h item object => m.pushFront h item object
  | .remove h item => m.remove h item

def seqStep (seqs : Seqs H I O) : Op H I O → Seqs H I O
  | .pushFront h item object => push seqs h item object
  | .remove h item => drop seqs h item

/-- Items are pushed while they are unlinked and removed from the head they are linked in. -/
def Legal (seqs : Seqs H I O) : Op H I O → Prop
  | .pushFront _ item _ => ∀ k, item ∉ ids seqs k
  | .remove h item => item ∈ ids seqs h

theorem Refines.step {op : Op H I O} (hm : Refines m seqs) (hop : Legal seqs op) :
    Refines (m.step op) (seqStep seqs op) := by
  cases op with
  | pushFront h i o => exact hm.pushFront hop
  | remove h i => exact hm.remove hop

theorem Refines.run {ops : List (Op H I O)} (hm : Refines m seqs)
    (hops : Guarded seqStep Legal seqs ops) :
    Refines (Neoip.run Mlist.step m ops) (Neoip.run seqStep seqs ops) := by
  induction ops generalizing m seqs with
  | nil => exact hm
  | cons op ops ih => exact ih (hm.step hops.1) hops.2

/-! ### Traversals -/

variable [DecidableEq O]

/-- What is read from the heads and along the links is the model. -/
structure Agrees (m : Mlist H I O) (seqs : Seqs H I O) : Prop where
  forward : ∀ h fuel, (seqs h).length < fuel → walk m.next fuel (m.first h) = some (ids seqs h)
  backward : ∀ h fuel, (seqs h).length < fuel →
    walk m.prev fuel (m.last h) = some (ids seqs h).reverse
  objects : ∀ h, (ids seqs h).map m.object = (seqs h).map Prod.snd
  size : ∀ h, m.count h = (seqs h).length
  find : ∀ h object fuel, (seqs h).length < fuel →
    m.find h object fuel = some (((seqs h).find? fun x => object = x.2).map Prod.fst)
  find_iff : ∀ h object fuel, (seqs h).length < fuel →
    ((∃ i, m.find h object fuel = some (some i)) ↔ ∃ x ∈ seqs h, x.2 = object)
  disjoint : ∀ h k, h ≠ k → (ids seqs h).Disjoint (ids seqs k)

omit [DecidableEq H] [DecidableEq I] in
theorem findFrom_eq {l : List (I × Option O)} {s : Option I}
    (hchain : Chain m.next s (l.map Prod.fst) none) (hobject : ∀ x ∈ l, m.object x.1 = x.2)
    {fuel : ℕ} (hfuel : l.length < fuel) :
    m.findFrom o fuel s = some ((l.find? fun x => o = x.2).map Prod.fst) := by
  induction l generalizing s fuel with
  | nil =>
    cases fuel with
    | zero => omega
    | succ fuel => rw [chain_nil.1 hchain, findFrom, List.find?_nil, Option.map_none]
  | cons x l ih =>
    cases fuel with
    | zero => omega
    | succ fuel =>
      obtain ⟨rfl, hchain⟩ := hchain
      rw [findFrom, hobject x List.mem_cons_self]
      by_cases heq : o = x.2
      · rw [if_pos heq, List.find?_cons, decide_eq_true heq, Option.map_some]
      · rw [if_neg heq, List.find?_cons, decide_eq_false heq]
        exact ih hchain (fun y hy => hobject y (List.mem_cons_of_mem x hy))
          (Nat.lt_of_succ_lt_succ hfuel)

omit [DecidableEq H] [DecidableEq I] in
theorem Refines.find_eq (hm : Refines m seqs) (h : H) (o : Option O) {fuel : ℕ}
    (hfuel : (seqs h).length < fuel) :
    m.find h o fuel = some (((seqs h).find? fun x => o = x.2).map Prod.fst) :=
  findFrom_eq (hm.next h) (hm.object h) hfuel

omit [DecidableEq H] [DecidableEq I] in
theorem Refines.agrees (hm : Refines m seqs) : Agrees m seqs where
  forward h fuel hfuel := (hm.next h).walk (by rwa [ids, List.length_map])
  backward h fuel hfuel := (hm.prev h).walk (by rwa [List.length_reverse, ids, List.length_map])
  objects h := by
    rw [ids, List.map_map]
    exact List.map_congr_left (hm.object h)
  size := hm.count
  find h object fuel hfuel := hm.find_eq h object hfuel
  find_iff h object fuel hfuel := by
    rw [hm.find_eq h object hfuel]
    constructor
    · rintro ⟨i, hi⟩
      obtain ⟨x, hx, -⟩ := Option.map_eq_some_iff.1 (Option.some.inj hi)
      have heq := List.find?_some hx
      exact ⟨x, List.mem_of_find?_eq_some hx, (of_decide_eq_true heq).symm⟩
    · rintro ⟨x, hx, heq⟩
      have hsome : ((seqs h).find? fun x => object = x.2).isSome = true :=
        List.find?_isSome.2 ⟨x, hx, decide_eq_true heq.symm⟩
      obtain ⟨y, hy⟩ := Option.isSome_iff_exists.1 hsome
      exact ⟨y.1, by rw [hy]; rfl⟩
  disjoint h k hne i hi hi' := hne (hm.eq_of_mem hi hi')

/-- **After any run** in which items are pushed while they are unlinked and removed from the head
they are linked in, the memory is read as the model. -/
theorem mlist_run (ops : List (Op H I O)) (hops : Guarded seqStep Legal (fun _ => []) ops) :
    Agrees (Neoip.run step init ops) (Neoip.run seqStep (fun _ => []) ops) :=
  (refines_init.run hops).agrees

/-- Two heads, an item taken out of the middle and pushed to the other head. -/
theorem mlist_run_two : Agrees (H := Bool) (I := ℕ) (O := ℕ)
    (Neoip.run step init [.pushFront true 1 (some 7), .pushFront true 2 (some 8),
      .pushFront true 3 (some 9), .remove true 2, .pushFront false 2 (some 5)])
    (Neoip.run seqStep (fun _ => []) [.pushFront true 1 (some 7), .pushFront true 2 (some 8),
      .pushFront true 3 (some 9), .remove true 2, .pushFront false 2 (some 5)]) :=
  mlist_run _ ⟨by simp only [Legal]; decide, by simp only [Legal]; decide,
    by simp only [Legal]; decide, by simp only [Legal]; decide, by simp only [Legal]; decide, trivial⟩

end Runs

end Mlist

end Neoip
