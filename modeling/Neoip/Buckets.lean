/-
Neoip/Buckets.lean

Sets under two keys, as a map of maps of sets.

`insert` makes the maps on the way to the set, `erase` removes those which it
leaves empty.  `bucket` reads the set under two keys, which is empty when one of
the maps is missing, and `NoEmpty` says that there is no empty map and no empty
set.  `findDesc` looks at the sets from the highest first key to the lowest, and
under one first key from the highest second key to the lowest.

Main results: `mem_bucket_insert`, `mem_bucket_erase`, both operations keep
`NoEmpty`, and `findDesc_eq_some`, that no set under higher keys was left aside.
-/
import Mathlib.Data.List.Basic
import Mathlib.Tactic.Common
import Std.Data.TreeMap.Lemmas
import Std.Data.TreeSet.Lemmas

namespace Neoip

open Std

set_option linter.unusedSectionVars false

/-! ### The first one from the end -/

section FindSome

variable {α β : Type*} {f : α → Option β} {r : α → α → Prop} {l : List α} {b : β}

/-- What is found from the end of an ordered list is found at an item, and at none after it. -/
theorem findSome?_reverse_eq_some (hl : l.Pairwise r) (h : l.reverse.findSome? f = some b) :
    ∃ a ∈ l, f a = some b ∧ ∀ a' ∈ l, f a' ≠ none → a' = a ∨ r a' a := by
  obtain ⟨l₁, a, l₂, hrev, hb, hnone⟩ := List.findSome?_eq_some_iff.1 h
  have hsplit : l = l₂.reverse ++ a :: l₁.reverse := by
    rw [← List.reverse_reverse l, hrev]
    simp
  refine ⟨a, hsplit ▸ by simp, hb, fun a' ha' hsome => ?_⟩
  rw [hsplit] at ha' hl
  rcases List.mem_append.1 ha' with hbefore | hrest
  · exact .inr ((List.pairwise_append.1 hl).2.2 a' hbefore a (List.mem_cons_self ..))
  · rcases List.mem_cons.1 hrest with rfl | hafter
    · exact .inl rfl
    · exact absurd (hnone a' (List.mem_reverse.1 hafter)) hsome

theorem findSome?_reverse_eq_none : l.reverse.findSome? f = none ↔ ∀ a ∈ l, f a = none := by
  rw [List.findSome?_eq_none_iff]
  simp only [List.mem_reverse]

end FindSome

/-! ### Buckets -/

/-- Put a value under its key, or erase the key when the value is empty. -/
def store {κ ν : Type} [Ord κ] (m : TreeMap κ ν) (k : κ) (v : ν) (isEmpty : Bool) : TreeMap κ ν :=
  if isEmpty then m.erase k else m.insert k v

theorem getElem?_store {κ ν : Type} [Ord κ] [TransOrd κ] (m : TreeMap κ ν) (k k' : κ) (v : ν)
    (isEmpty : Bool) : (store m k v isEmpty)[k']? =
      if compare k k' = .eq then (if isEmpty then none else some v) else m[k']? := by
  unfold store
  cases isEmpty
  · simp only [Bool.false_eq_true, if_false, TreeMap.getElem?_insert]
  · simp only [if_true, TreeMap.getElem?_erase]

/-- Sets under two keys. -/
abbrev Buckets (κ ι α : Type) [Ord κ] [Ord ι] [Ord α] : Type := TreeMap κ (TreeMap ι (TreeSet α))

namespace Buckets

variable {κ ι α : Type} [Ord κ] [Ord ι] [Ord α]

/-- The set under the keys. -/
def bucket (db : Buckets κ ι α) (k : κ) (i : ι) : TreeSet α := ((db[k]?.getD ∅)[i]?).getD ∅

def insert (db : Buckets κ ι α) (k : κ) (i : ι) (a : α) : Buckets κ ι α :=
  TreeMap.alter db k fun sub => some <| (sub.getD ∅).alter i fun set => some <| (set.getD ∅).insert a

/-- Erase from the set under the keys; without these nothing is erased. -/
def erase (db : Buckets κ ι α) (k : κ) (i : ι) (a : α) : Buckets κ ι α :=
  match db[k]? with
  | none => db
  | some sub =>
    match sub[i]? with
    | none => db
    | some set =>
      let set := set.erase a
      let sub := store sub i set set.isEmpty
      store db k sub sub.isEmpty

/-- There is no empty map and no empty set. -/
def NoEmpty (db : Buckets κ ι α) : Prop :=
  ∀ (k : κ) (sub : TreeMap ι (TreeSet α)), db[k]? = some sub → sub.isEmpty = false ∧
    ∀ (i : ι) (set : TreeSet α), sub[i]? = some set → set.isEmpty = false

/-- The first which `f` gives, from the highest keys. -/
def findDesc {β : Type} (db : Buckets κ ι α) (f : κ → ι → TreeSet α → Option β) : Option β :=
  (TreeMap.toList db).reverse.findSome? fun x => x.2.toList.reverse.findSome? fun y => f x.1 y.1 y.2

variable [TransOrd κ] [LawfulEqOrd κ] [TransOrd ι] [LawfulEqOrd ι] [TransOrd α] [LawfulEqOrd α]
variable {db : Buckets κ ι α} {k k' : κ} {i i' : ι} {a a' : α} {sub : TreeMap ι (TreeSet α)}
  {set : TreeSet α}

@[simp] theorem mem_bucket_empty : a ∉ (∅ : Buckets κ ι α).bucket k i := by
  simp [bucket]

theorem noEmpty_empty : (∅ : Buckets κ ι α).NoEmpty := by
  intro k sub h
  simp at h

/-- A set which is there is the one under its keys. -/
theorem bucket_eq (hsub : db[k]? = some sub) (hset : sub[i]? = some set) : db.bucket k i = set := by
  simp [bucket, hsub, hset]

/-- The sets with an item are there. -/
theorem exists_of_mem_bucket (h : a ∈ db.bucket k i) :
    ∃ sub set, db[k]? = some sub ∧ sub[i]? = some set ∧ a ∈ set := by
  unfold bucket at h
  rcases hsub : db[k]? with _ | sub
  · simp [hsub] at h
  · rcases hset : sub[i]? with _ | set
    · simp [hsub, hset] at h
    · exact ⟨sub, set, rfl, hset, by simpa [hsub, hset] using h⟩

/-! ### Insertion -/

theorem mem_bucket_insert : a' ∈ (db.insert k i a).bucket k' i' ↔
    (k = k' ∧ i = i' ∧ a = a') ∨ a' ∈ db.bucket k' i' := by
  unfold bucket insert
  rw [TreeMap.getElem?_alter]
  by_cases hk : k = k'
  · subst hk
    rw [if_pos ReflCmp.compare_self, Option.getD_some, TreeMap.getElem?_alter]
    by_cases hi : i = i'
    · subst hi
      rw [if_pos ReflCmp.compare_self, Option.getD_some, TreeSet.mem_insert,
        LawfulEqCmp.compare_eq_iff_eq]
      simp only [true_and]
    · rw [if_neg (mt LawfulEqCmp.compare_eq_iff_eq.1 hi)]
      simp only [hi, false_and, and_false, false_or]
  · rw [if_neg (mt LawfulEqCmp.compare_eq_iff_eq.1 hk)]
    simp only [hk, false_and, false_or]

theorem noEmpty_insert (h : db.NoEmpty) : (db.insert k i a).NoEmpty := by
  intro k' sub hsub
  unfold insert at hsub
  rw [TreeMap.getElem?_alter] at hsub
  by_cases hk : k = k'
  · subst hk
    rw [if_pos ReflCmp.compare_self, Option.some.injEq] at hsub
    subst hsub
    constructor
    · rw [TreeMap.isEmpty_eq_false_iff_exists_mem]
      exact ⟨i, by simp⟩
    · intro i' set hset
      rw [TreeMap.getElem?_alter] at hset
      by_cases hi : i = i'
      · subst hi
        rw [if_pos ReflCmp.compare_self, Option.some.injEq] at hset
        subst hset
        exact TreeSet.isEmpty_insert
      · rw [if_neg (mt LawfulEqCmp.compare_eq_iff_eq.1 hi)] at hset
        rcases hget : db[k]? with _ | sub
        · simp [hget] at hset
        · rw [hget] at hset
          exact (h k sub hget).2 i' set hset
  · rw [if_neg (mt LawfulEqCmp.compare_eq_iff_eq.1 hk)] at hsub
    exact h k' sub hsub

/-! ### Erasure -/

/-- What is read under the key of a map which was put there. -/
theorem getElem?_getD_store (db : Buckets κ ι α) (k : κ) (sub : TreeMap ι (TreeSet α)) (i : ι) :
    ((store db k sub sub.isEmpty)[k]?.getD ∅)[i]? = sub[i]? := by
  rw [getElem?_store, if_pos ReflCmp.compare_self]
  cases hempty : sub.isEmpty
  · rfl
  · simp [TreeMap.getElem?_of_isEmpty hempty]

theorem mem_getD_store (sub : TreeMap ι (TreeSet α)) (i : ι) (set : TreeSet α) :
    a ∈ ((store sub i set set.isEmpty)[i]?).getD ∅ ↔ a ∈ set := by
  rw [getElem?_store, if_pos ReflCmp.compare_self]
  cases hempty : set.isEmpty
  · rfl
  · simp [TreeSet.not_mem_of_isEmpty hempty]

theorem mem_bucket_erase : a' ∈ (db.erase k i a).bucket k' i' ↔
    a' ∈ db.bucket k' i' ∧ ¬(k = k' ∧ i = i' ∧ a = a') := by
  -- without the set there is nothing to erase
  have habsent : (∀ set, ∀ sub, db[k]? = some sub → sub[i]? ≠ some set) →
      (a' ∈ db.bucket k' i' ↔ a' ∈ db.bucket k' i' ∧ ¬(k = k' ∧ i = i' ∧ a = a')) := by
    intro hno
    refine ⟨fun hmem => ⟨hmem, ?_⟩, And.left⟩
    rintro ⟨rfl, rfl, rfl⟩
    obtain ⟨sub, set, hsub, hset, -⟩ := exists_of_mem_bucket hmem
    exact hno set sub hsub hset
  unfold erase
  split
  · next hsub => exact habsent fun set sub h => by simp [hsub] at h
  · next sub hsub =>
      split
      · next hset =>
          refine habsent fun set sub' h => ?_
          rw [hsub, Option.some.injEq] at h
          simp [← h, hset]
      · next set hset =>
          show a' ∈ bucket (store db k (store sub i (set.erase a) (set.erase a).isEmpty) _) k' i' ↔ _
          by_cases hk : k = k'
          · subst hk
            rw [bucket, getElem?_getD_store]
            by_cases hi : i = i'
            · subst hi
              rw [mem_getD_store, bucket_eq hsub hset, TreeSet.mem_erase, Ne,
                LawfulEqCmp.compare_eq_iff_eq]
              simp only [true_and, and_comm]
            · rw [getElem?_store, if_neg (mt LawfulEqCmp.compare_eq_iff_eq.1 hi)]
              simp only [bucket, hsub, Option.getD_some, hi, false_and, and_false,
                not_false_eq_true, and_true]
          · rw [bucket, getElem?_store, if_neg (mt LawfulEqCmp.compare_eq_iff_eq.1 hk), ← bucket]
            simp only [hk, false_and, not_false_eq_true, and_true]

theorem noEmpty_erase (h : db.NoEmpty) : (db.erase k i a).NoEmpty := by
  unfold erase
  split
  · exact h
  · next sub hsub =>
      split
      · exact h
      · next set hset =>
          intro k' sub' hsub'
          replace hsub' : (store db k (store sub i (set.erase a) (set.erase a).isEmpty)
            (store sub i (set.erase a) (set.erase a).isEmpty).isEmpty)[k']? = some sub' := hsub'
          rw [getElem?_store] at hsub'
          split_ifs at hsub' with hk hempty
          · obtain rfl := Option.some.inj hsub'
            refine ⟨Bool.eq_false_iff.2 hempty, fun i' set' hset' => ?_⟩
            rw [getElem?_store] at hset'
            split_ifs at hset' with hi hempty'
            · obtain rfl := Option.some.inj hset'
              exact Bool.eq_false_iff.2 hempty'
            · exact (h k sub hsub).2 i' set' hset'
          · exact h k' sub' hsub'

/-! ### The highest keys first -/

variable {β : Type} {f : κ → ι → TreeSet α → Option β} {b : β}

/-- **What is found is under the highest keys** where `f` gives something. -/
theorem findDesc_eq_some (h : db.findDesc f = some b) :
    ∃ k i sub set, db[k]? = some sub ∧ sub[i]? = some set ∧ f k i set = some b ∧
      ∀ k' i' sub' set', db[k']? = some sub' → sub'[i']? = some set' → f k' i' set' ≠ none →
        compare k' k = .lt ∨ (k' = k ∧ (compare i' i = .lt ∨ i' = i)) := by
  obtain ⟨⟨k, sub⟩, hsub, hfind, hk⟩ :=
    findSome?_reverse_eq_some TreeMap.ordered_keys_toList h
  obtain ⟨⟨i, set⟩, hset, hb, hi⟩ :=
    findSome?_reverse_eq_some TreeMap.ordered_keys_toList hfind
  rw [TreeMap.mem_toList_iff_getElem?_eq_some] at hsub hset
  refine ⟨k, i, sub, set, hsub, hset, hb, fun k' i' sub' set' hsub' hset' hsome => ?_⟩
  have hmem' := TreeMap.mem_toList_iff_getElem?_eq_some.2 hset'
  have hlevel : (sub'.toList.reverse.findSome? fun y => f k' y.1 y.2) ≠ none := by
    rw [Ne, findSome?_reverse_eq_none]
    exact fun hnone => hsome (hnone (i', set') hmem')
  rcases hk (k', sub') (TreeMap.mem_toList_iff_getElem?_eq_some.2 hsub') hlevel with heq | hlt
  · obtain ⟨rfl, rfl⟩ := Prod.mk.inj heq
    refine .inr ⟨rfl, ?_⟩
    rcases hi (i', set') hmem' hsome with heq | hlt
    · exact .inr (Prod.mk.inj heq).1
    · exact .inl hlt
  · exact .inl hlt

theorem findDesc_eq_none : db.findDesc f = none ↔
    ∀ k i sub set, db[k]? = some sub → sub[i]? = some set → f k i set = none := by
  unfold findDesc
  rw [findSome?_reverse_eq_none]
  simp only [findSome?_reverse_eq_none, Prod.forall, TreeMap.mem_toList_iff_getElem?_eq_some]
  constructor
  · intro h k i sub set hsub hset
    exact h k sub hsub i set hset
  · intro h k sub hsub i set hset
    exact h k i sub set hsub hset

end Buckets

end Neoip
