/-
Neoip/KeyedDb.lean

A list of objects under distinct keys, in the order in which they were linked.

It is what a list of pointers is in the source: the pointer is the key, and the
object which it points to can be modified in place.  That the keys are distinct
is a field.

`count p` counts the objects with `p`; the lemmas `count_…` say how each
operation changes it, which is what an incrementally maintained counter has to
follow.
-/
import Mathlib.Data.Int.Basic
import Mathlib.Data.List.Basic
import Mathlib.Data.List.Nodup
import Mathlib.Tactic.Common

namespace Neoip

/-- A database with one item a key. -/
structure KeyedDb (κ α : Type*) where
  item : List (κ × α)
  nodup : (item.map Prod.fst).Nodup

namespace KeyedDb

variable {κ α : Type*}

def empty : KeyedDb κ α := ⟨[], List.nodup_nil⟩

def count (db : KeyedDb κ α) (p : α → Bool) : ℕ := db.item.countP fun x => p x.2

/-- What `f` keeps of every object. -/
def map {β : Type*} (f : α → β) (db : KeyedDb κ α) : KeyedDb κ β where
  item := db.item.map fun x => (x.1, f x.2)
  nodup := by
    rw [List.map_map]
    exact db.nodup

/-- Apply `f` to every object. -/
def mapAll (db : KeyedDb κ α) (f : κ → α → α) : KeyedDb κ α where
  item := db.item.map fun x => (x.1, f x.1 x.2)
  nodup := by
    rw [List.map_map]
    exact db.nodup

variable [DecidableEq κ]

def get (db : KeyedDb κ α) (k : κ) : Option α := db.item.lookup k

def modify (db : KeyedDb κ α) (k : κ) (f : α → α) : KeyedDb κ α :=
  db.mapAll fun j a => if j = k then f a else a

def erase (db : KeyedDb κ α) (k : κ) : KeyedDb κ α where
  item := db.item.filter fun x => x.1 ≠ k
  nodup := db.nodup.sublist (List.filter_sublist.map _)

/-- Link a new object behind the first ones, those whose key is `before`.  A key which is
there already stays as it is. -/
def link (db : KeyedDb κ α) (before : κ → Bool) (k : κ) (a : α) : KeyedDb κ α :=
  if h : k ∈ db.item.map Prod.fst then db
  else
    { item := db.item.takeWhile (fun x => before x.1) ++
        (k, a) :: db.item.dropWhile fun x => before x.1
      nodup := by
        rw [(List.perm_middle.map Prod.fst).nodup_iff, List.map_cons,
          List.takeWhile_append_dropWhile]
        exact List.nodup_cons.2 ⟨h, db.nodup⟩ }

/-- Link a new object at the end. -/
def push (db : KeyedDb κ α) (k : κ) (a : α) : KeyedDb κ α := db.link (fun _ => true) k a

variable {db : KeyedDb κ α} {k j : κ} {a b : α} {f : α → α} {p : α → Bool}

/-! ### Reading -/

theorem mem_item_iff : (k, a) ∈ db.item ↔ db.get k = some a := by
  obtain ⟨l, hl⟩ := db
  show (k, a) ∈ l ↔ l.lookup k = some a
  induction l with
  | nil => simp
  | cons x l ih =>
    obtain ⟨k', a'⟩ := x
    obtain ⟨hnot, hl'⟩ := List.nodup_cons.1 hl
    rw [List.mem_cons, List.lookup_cons, ih hl']
    by_cases hk : k = k'
    · subst hk
      have hno : l.lookup k ≠ some a := fun h =>
        hnot (List.mem_map.2 ⟨(k, a), (ih hl').2 h, rfl⟩)
      simp [hno, eq_comm]
    · simp [hk, beq_eq_false_iff_ne.2 hk]

theorem get_eq_none : db.get k = none ↔ k ∉ db.item.map Prod.fst := by
  constructor
  · intro h hk
    obtain ⟨⟨k', a⟩, hm, rfl⟩ := List.mem_map.1 hk
    rw [mem_item_iff, h] at hm
    cases hm
  · intro h
    by_contra hne
    obtain ⟨a, ha⟩ := Option.ne_none_iff_exists'.1 hne
    exact h (List.mem_map.2 ⟨(k, a), mem_item_iff.2 ha, rfl⟩)

@[simp] theorem get_empty : (empty : KeyedDb κ α).get k = none := rfl

theorem get_mapAll {g : κ → α → α} : (db.mapAll g).get k = (db.get k).map (g k) := by
  apply Option.ext
  intro b
  rw [← mem_item_iff, mapAll, Option.map_eq_some_iff]
  constructor
  · intro h
    obtain ⟨⟨k', a⟩, hm, he⟩ := List.mem_map.1 h
    obtain ⟨rfl, rfl⟩ := Prod.mk.inj he
    exact ⟨a, mem_item_iff.1 hm, rfl⟩
  · rintro ⟨a, ha, rfl⟩
    exact List.mem_map.2 ⟨(k, a), mem_item_iff.2 ha, rfl⟩

theorem get_modify : (db.modify k f).get j = if j = k then (db.get k).map f else db.get j := by
  rw [modify, get_mapAll]
  split_ifs with hj
  · simp only [hj]
  · exact Option.map_id'

theorem get_modify_self : (db.modify k f).get k = (db.get k).map f := by
  rw [get_modify, if_pos rfl]

theorem get_erase : (db.erase k).get j = if j = k then none else db.get j := by
  apply Option.ext
  intro b
  rw [← mem_item_iff, erase, List.mem_filter, mem_item_iff]
  split_ifs with hj
  · simp [hj]
  · simp [hj]

theorem link_of_some {before : κ → Bool} (h : db.get k = some b) : db.link before k a = db := by
  rw [link, dif_pos]
  by_contra hn
  rw [get_eq_none.2 hn] at h
  cases h

theorem link_perm {before : κ → Bool} (h : db.get k = none) :
    (db.link before k a).item.Perm ((k, a) :: db.item) := by
  rw [link, dif_neg (get_eq_none.1 h)]
  refine List.perm_middle.trans ?_
  rw [List.takeWhile_append_dropWhile]

theorem get_link {before : κ → Bool} (h : db.get k = none) :
    (db.link before k a).get j = if j = k then some a else db.get j := by
  apply Option.ext
  intro b
  rw [← mem_item_iff, (link_perm h).mem_iff, List.mem_cons, mem_item_iff]
  split_ifs with hj
  · rw [hj, h]
    simp [eq_comm]
  · simp [hj]

/-! ### What is kept of the objects -/

section Map

variable {β : Type*} {q : α → β}

omit [DecidableEq κ] in
theorem ext_item {db' : KeyedDb κ α} (h : db.item = db'.item) : db = db' := by
  cases db
  cases db'
  cases h
  rfl

theorem get_map : (db.map q).get k = (db.get k).map q := by
  apply Option.ext
  intro b
  rw [← mem_item_iff, map, Option.map_eq_some_iff]
  constructor
  · intro h
    obtain ⟨⟨k', a⟩, hm, he⟩ := List.mem_map.1 h
    obtain ⟨rfl, rfl⟩ := Prod.mk.inj he
    exact ⟨a, mem_item_iff.1 hm, rfl⟩
  · rintro ⟨a, ha, rfl⟩
    exact List.mem_map.2 ⟨(k, a), mem_item_iff.2 ha, rfl⟩

omit [DecidableEq κ] in
/-- What is not kept can be changed freely. -/
theorem map_mapAll {g : κ → α → α} (hg : ∀ k a, q (g k a) = q a) :
    (db.mapAll g).map q = db.map q := by
  apply ext_item
  simp only [map, mapAll, List.map_map]
  refine List.map_congr_left fun x _ => ?_
  simp only [Function.comp_apply, hg]

theorem map_modify {g : β → β} (hg : ∀ a, q (f a) = g (q a)) :
    (db.modify k f).map q = (db.map q).modify k g := by
  apply ext_item
  simp only [map, modify, mapAll, List.map_map]
  refine List.map_congr_left fun x _ => ?_
  simp only [Function.comp_apply]
  split_ifs
  · rw [hg]
  · rfl

theorem map_modify_self (hg : ∀ a, q (f a) = q a) : (db.modify k f).map q = db.map q :=
  map_mapAll fun j a => by
    split_ifs
    · exact hg a
    · rfl

theorem modify_congr {f' : α → α} (h : db.get k = some a) (hf : f a = f' a) :
    db.modify k f = db.modify k f' := by
  apply ext_item
  simp only [modify, mapAll]
  refine List.map_congr_left fun x hx => ?_
  split_ifs with hk
  · have : db.get k = some x.2 := hk ▸ mem_item_iff.1 hx
    rw [h, Option.some.injEq] at this
    rw [← this, hf]
  · rfl

theorem map_erase : (db.erase k).map q = (db.map q).erase k := by
  apply ext_item
  simp only [map, erase, List.filter_map]
  rfl

theorem map_link {before : κ → Bool} : (db.link before k a).map q = (db.map q).link before k (q a) := by
  have hkeys : (db.map q).item.map Prod.fst = db.item.map Prod.fst := by
    simp only [map, List.map_map]
    rfl
  by_cases h : k ∈ db.item.map Prod.fst
  · rw [link, dif_pos h, link, dif_pos (hkeys ▸ h)]
  · rw [link, dif_neg h, link, dif_neg (hkeys ▸ h)]
    apply ext_item
    simp only [map, List.map_append, List.map_cons, List.takeWhile_map, List.dropWhile_map]
    rfl

end Map

/-! ### Counting -/

omit [DecidableEq κ] in
theorem count_map {β : Type*} {q : α → β} {p : β → Bool} :
    (db.map q).count p = db.count fun a => p (q a) := by
  rw [count, map, List.countP_map]
  rfl

/-- One object taken out of the count. -/
theorem count_eq_erase (h : db.get k = some a) :
    db.count p = (db.erase k).count p + if p a then 1 else 0 := by
  obtain ⟨l, hl⟩ := db
  replace h : l.lookup k = some a := h
  show l.countP _ = (l.filter _).countP _ + _
  induction l with
  | nil => cases h
  | cons x l ih =>
    obtain ⟨k', a'⟩ := x
    obtain ⟨hnot, hl'⟩ := List.nodup_cons.1 hl
    rw [List.lookup_cons] at h
    by_cases hk : k = k'
    · subst hk
      simp only [beq_self_eq_true, Option.some.injEq] at h
      have hall : l.filter (fun x => decide (x.1 ≠ k)) = l := by
        rw [List.filter_eq_self]
        intro x hx
        rw [decide_eq_true_eq]
        rintro rfl
        exact hnot (List.mem_map.2 ⟨x, hx, rfl⟩)
      rw [List.filter_cons_of_neg (by simp), hall, List.countP_cons, h]
    · simp only [beq_eq_false_iff_ne.2 hk] at h
      rw [List.filter_cons_of_pos (by simpa using Ne.symm hk), List.countP_cons,
        List.countP_cons, ih hl' h]
      omega

theorem erase_modify : (db.modify k f).erase k = db.erase k := by
  obtain ⟨l, hl⟩ := db
  simp only [modify, mapAll, erase, KeyedDb.mk.injEq]
  induction l with
  | nil => rfl
  | cons x l ih =>
    by_cases hk : x.1 = k
    · rw [List.map_cons, List.filter_cons_of_neg (by simpa using hk),
        List.filter_cons_of_neg (by simpa using hk), ih (List.nodup_cons.1 hl).2]
    · rw [List.map_cons, List.filter_cons_of_pos (by simpa using hk),
        List.filter_cons_of_pos (by simpa using hk), ih (List.nodup_cons.1 hl).2, if_neg hk]

/-- One object modified: the count follows that object. -/
theorem count_modify (h : db.get k = some a) :
    ((db.modify k f).count p : Int) =
      db.count p - (if p a then 1 else 0) + if p (f a) then 1 else 0 := by
  have h' : (db.modify k f).get k = some (f a) := by rw [get_modify_self, h, Option.map_some]
  rw [count_eq_erase h, count_eq_erase h', erase_modify]
  split_ifs <;> push_cast <;> omega

theorem count_erase (h : db.get k = some a) :
    ((db.erase k).count p : Int) = db.count p - if p a then 1 else 0 := by
  rw [count_eq_erase h]
  split_ifs <;> push_cast <;> omega

theorem count_link {before : κ → Bool} (h : db.get k = none) :
    ((db.link before k a).count p : Int) = db.count p + if p a then 1 else 0 := by
  rw [count, (link_perm h).countP_eq, List.countP_cons, count]
  split_ifs <;> push_cast <;> omega

theorem count_pos (h : db.get k = some a) (hp : p a = true) : 0 < db.count p := by
  rw [count_eq_erase h, hp]
  exact Nat.succ_pos _

end KeyedDb

end Neoip
