/-
Neoip/StateDb.lean

A store of objects which are listed by their state.

Each object has a key and a state (`st`), which may be none at all.  Beside the
objects the store keeps one sorted list of keys for each state, the *databases*.
An object is linked in the database of its state, and in no other one; an
object without a state is linked nowhere.  This is a field of the store, so it
holds of every store that can be built, whatever is done to the objects.

`set` writes an object (a new one, or one that is there already) and links it
again under the state it has now; `erase` unlinks it and drops it.  `update` is
`set` of a function of the object.
-/
import Mathlib.Data.List.Basic
import Mathlib.Data.List.Pairwise
import Mathlib.Order.Lattice
import Mathlib.Tactic.Common

namespace Neoip

/-! ### Sorted key lists -/

section Keys

variable {κ : Type*} [LinearOrder κ]

/-- Insert a key in a sorted list, unless it is there. -/
def insertKey (k : κ) : List κ → List κ
  | [] => [k]
  | a :: l => if k < a then k :: a :: l else if a < k then a :: insertKey k l else a :: l

def eraseKey (k : κ) (l : List κ) : List κ := l.filter fun a => a ≠ k

variable {k a : κ} {l : List κ}

@[simp] theorem mem_insertKey : a ∈ insertKey k l ↔ a = k ∨ a ∈ l := by
  induction l with
  | nil => simp [insertKey]
  | cons b l ih =>
    rw [insertKey]
    split_ifs with h1 h2
    · simp
    · rw [List.mem_cons, ih, List.mem_cons, or_left_comm]
    · have : k = b := le_antisymm (not_lt.1 h2) (not_lt.1 h1)
      simp [this]

@[simp] theorem mem_eraseKey : a ∈ eraseKey k l ↔ a ∈ l ∧ a ≠ k := by simp [eraseKey]

theorem sorted_insertKey (h : l.Pairwise (· < ·)) : (insertKey k l).Pairwise (· < ·) := by
  induction l with
  | nil => simp [insertKey]
  | cons b l ih =>
    obtain ⟨hb, hl⟩ := List.pairwise_cons.1 h
    rw [insertKey]
    split_ifs with h1 h2
    · refine List.pairwise_cons.2 ⟨?_, h⟩
      rintro c (_ | ⟨_, hc⟩)
      · exact h1
      · exact h1.trans (hb c hc)
    · refine List.pairwise_cons.2 ⟨?_, ih hl⟩
      intro c hc
      rcases mem_insertKey.1 hc with rfl | hc
      · exact h2
      · exact hb c hc
    · exact h

theorem sorted_eraseKey (h : l.Pairwise (· < ·)) : (eraseKey k l).Pairwise (· < ·) :=
  h.filter _

end Keys

/-! ### The store -/

/-- Objects `β` under keys `κ`, listed by their state `st : β → Option σ`. -/
structure StateDb (κ : Type*) [LinearOrder κ] {σ β : Type*} (st : β → Option σ) where
  obj : κ → Option β
  db : σ → List κ
  sorted : ∀ q, (db q).Pairwise (· < ·)
  mem_db : ∀ q k, k ∈ db q ↔ ∃ b, obj k = some b ∧ st b = some q

namespace StateDb

variable {κ : Type*} [LinearOrder κ] {σ β : Type*} {st : β → Option σ}

/-! ### What the databases hold -/

section Databases

variable {s : StateDb κ st} {k : κ} {b : β} {q q' : σ}

theorem mem_db_of_obj (h : s.obj k = some b) : k ∈ s.db q ↔ st b = some q := by
  rw [s.mem_db]
  constructor
  · rintro ⟨b', hb', hq⟩
    rw [h] at hb'
    cases hb'
    exact hq
  · intro hq
    exact ⟨b, h, hq⟩

theorem nodup_db : (s.db q).Nodup := (s.sorted q).imp ne_of_lt

theorem obj_of_mem_db (h : k ∈ s.db q) : ∃ b, s.obj k = some b ∧ st b = some q :=
  (s.mem_db q k).1 h

/-- **Exclusive linking**: an object is linked in one database at most. -/
theorem db_unique (h : k ∈ s.db q) (h' : k ∈ s.db q') : q = q' := by
  obtain ⟨b, hb, hq⟩ := obj_of_mem_db h
  exact Option.some.inj (hq.symm.trans ((mem_db_of_obj hb).1 h'))

/-- A database is empty when no object has its state. -/
theorem db_eq_nil : s.db q = [] ↔ ∀ k b, s.obj k = some b → st b ≠ some q := by
  rw [List.eq_nil_iff_forall_not_mem]
  constructor
  · intro h k b hb hq
    exact h k ((mem_db_of_obj hb).2 hq)
  · intro h k hk
    obtain ⟨b, hb, hq⟩ := obj_of_mem_db hk
    exact h k b hb hq

end Databases

/-! ### Operations -/

/-- The store without any object. -/
def empty : StateDb κ st where
  obj _ := none
  db _ := []
  sorted _ := List.Pairwise.nil
  mem_db _ _ := by simp

/-- Unlink the object under `k` and drop it. -/
def erase (s : StateDb κ st) (k : κ) : StateDb κ st where
  obj j := if j = k then none else s.obj j
  db q := eraseKey k (s.db q)
  sorted q := sorted_eraseKey (s.sorted q)
  mem_db q j := by
    by_cases hj : j = k <;> simp [hj, s.mem_db]

section Erase

variable {s : StateDb κ st} {k j : κ} {q : σ}

@[simp] theorem obj_empty : (empty : StateDb κ st).obj k = none := rfl

@[simp] theorem db_empty : (empty : StateDb κ st).db q = [] := rfl

theorem obj_erase : (s.erase k).obj j = if j = k then none else s.obj j := rfl

end Erase

variable [DecidableEq σ]

/-- Write the object `b` under `k`, and link it under its state. -/
def set (s : StateDb κ st) (k : κ) (b : β) : StateDb κ st where
  obj j := if j = k then some b else s.obj j
  db q := if st b = some q then insertKey k (s.db q) else eraseKey k (s.db q)
  sorted q := by
    split_ifs
    · exact sorted_insertKey (s.sorted q)
    · exact sorted_eraseKey (s.sorted q)
  mem_db q j := by
    by_cases hj : j = k
    · by_cases hq : st b = some q <;> simp [hj, hq]
    · by_cases hq : st b = some q <;> simp [hj, hq, s.mem_db]

/-- Apply `f` to the object under `k`, if there is one. -/
def update (s : StateDb κ st) (k : κ) (f : β → β) : StateDb κ st :=
  match s.obj k with
  | some b => s.set k (f b)
  | none => s

variable {s : StateDb κ st} {k j : κ} {b : β} {f : β → β}

theorem obj_set : (s.set k b).obj j = if j = k then some b else s.obj j := rfl

@[simp] theorem obj_set_self : (s.set k b).obj k = some b := if_pos rfl

theorem obj_set_of_ne (h : j ≠ k) : (s.set k b).obj j = s.obj j := if_neg h

theorem obj_update : (s.update k f).obj j = if j = k then (s.obj k).map f else s.obj j := by
  unfold update
  by_cases hj : j = k
  · subst hj
    cases h : s.obj j <;> simp [h]
  · cases h : s.obj k <;> simp [hj, obj_set]

end StateDb

end Neoip
