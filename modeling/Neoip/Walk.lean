/-
Neoip/Walk.lean

Walks in a tree: some steps up, and then down along names.

A step up takes the last step down back, so every sequence of steps is such a walk,
and walks are composed as the sequences are: they are a monoid.  What a walk `a`
followed by `b` comes to is below what `a` comes to exactly when `b` goes up no
further than `a` has gone down, and down again along the names it took back
(`mul_down_eq_append_iff`, `mul_up_eq_iff`).
-/
import Mathlib.Algebra.BigOperators.Group.List.Basic
import Mathlib.Tactic.Common

namespace Neoip

/-- A walk: `up` steps to the parent, and then down along the names. -/
@[ext]
structure Walk (α : Type*) where
  up : ℕ
  down : List α
  deriving DecidableEq, Repr

namespace Walk

variable {α : Type*}

/-- The steps up of the second walk take back the last steps down of the first one. -/
protected def comp (a b : Walk α) : Walk α where
  up := a.up + (b.up - a.down.length)
  down := a.down.take (a.down.length - b.up) ++ b.down

instance : Mul (Walk α) := ⟨Walk.comp⟩

instance : One (Walk α) := ⟨⟨0, []⟩⟩

@[simp] theorem one_up : (1 : Walk α).up = 0 := rfl

@[simp] theorem one_down : (1 : Walk α).down = [] := rfl

theorem mul_up (a b : Walk α) : (a * b).up = a.up + (b.up - a.down.length) := rfl

theorem mul_down (a b : Walk α) :
    (a * b).down = a.down.take (a.down.length - b.up) ++ b.down := rfl

theorem length_mul_down (a b : Walk α) :
    (a * b).down.length = a.down.length - b.up + b.down.length := by
  rw [mul_down, List.length_append, List.length_take, Nat.min_eq_left (Nat.sub_le _ _)]

instance : Monoid (Walk α) where
  one_mul a := by
    ext1
    · rw [mul_up, one_up, one_down, List.length_nil, Nat.sub_zero, Nat.zero_add]
    · rw [mul_down, one_down, List.take_nil, List.nil_append]
  mul_one a := by
    ext1
    · rw [mul_up, one_up, Nat.zero_sub, Nat.add_zero]
    · rw [mul_down, one_up, one_down, Nat.sub_zero, List.take_length, List.append_nil]
  mul_assoc a b c := by
    ext1
    · rw [mul_up, mul_up, mul_up, mul_up, length_mul_down]
      omega
    · rw [mul_down, length_mul_down, mul_down, mul_down, mul_down, mul_up, List.take_append,
        List.take_take, List.length_take, List.append_assoc]
      congr 2
      · omega
      · congr 1
        omega

/-- One step up. -/
def parent : Walk α := ⟨1, []⟩

/-- One step down. -/
def child (name : α) : Walk α := ⟨0, [name]⟩

theorem parent_mul (a : Walk α) : parent * a = ⟨a.up + 1, a.down⟩ := by
  ext1
  · rw [mul_up]
    show 1 + (a.up - 0) = a.up + 1
    omega
  · show List.take _ [] ++ a.down = a.down
    rw [List.take_nil, List.nil_append]

theorem child_mul {a : Walk α} (h : a.up = 0) (name : α) :
    child name * a = ⟨0, name :: a.down⟩ := by
  ext1
  · rw [mul_up, h]
    rfl
  · rw [mul_down, h]
    rfl

/-- A walk which only goes down goes on from where the first one led. -/
theorem mul_of_up_eq_zero (a : Walk α) {b : Walk α} (h : b.up = 0) :
    a * b = ⟨a.up, a.down ++ b.down⟩ := by
  ext1
  · rw [mul_up, h, Nat.zero_sub, Nat.add_zero]
  · rw [mul_down, h, Nat.sub_zero, List.take_length]

/-- A step up takes the step down back. -/
@[simp] theorem child_mul_parent (name : α) : child name * parent = 1 := rfl

/-- What is below: the second walk goes down again along what it took back. -/
theorem mul_down_eq_append_iff {a b : Walk α} {rest : List α} :
    (a * b).down = a.down ++ rest ↔
      b.down = a.down.drop (a.down.length - b.up) ++ rest := by
  have hsplit := List.take_append_drop (a.down.length - b.up) a.down
  rw [mul_down]
  constructor
  · intro h
    rw [← hsplit, List.append_assoc] at h
    rw [hsplit] at h
    exact List.append_cancel_left h
  · intro h
    rw [h, ← List.append_assoc, hsplit]

theorem mul_up_eq_iff {a b : Walk α} : (a * b).up = a.up ↔ b.up ≤ a.down.length := by
  rw [mul_up]
  omega

/-- Where the walk leads from a directory; the root is its own parent. -/
def follow (a : Walk α) (dir : List α) : List α := (⟨0, dir⟩ * a).down

@[simp] theorem follow_nil (a : Walk α) : a.follow [] = a.down := by
  rw [follow, mul_down, List.take_nil, List.nil_append]

/-- A step down between two walks: the second one takes back what is behind some of the first one
and of the step. -/
theorem exists_prefix_of_mul_child (a : Walk α) (name : α) (b : Walk α) :
    ∃ front, front <+: a.down ++ [name] ∧ (a * (child name * b)).down = front ++ b.down := by
  cases hup : b.up with
  | zero =>
    refine ⟨a.down ++ [name], List.prefix_refl _, ?_⟩
    rw [child_mul hup, mul_of_up_eq_zero a rfl, List.append_assoc]
    rfl
  | succ up =>
    have hchild : (child name * b).down = b.down := by
      rw [mul_down, hup]
      show List.take (1 - (up + 1)) [name] ++ b.down = _
      rw [Nat.sub_eq_zero_of_le (Nat.le_add_left 1 up), List.take_zero, List.nil_append]
    refine ⟨a.down.take (a.down.length - (child name * b).up),
      (List.take_prefix _ a.down).trans (List.prefix_append _ _), ?_⟩
    rw [mul_down, hchild]

/-- A step down which is neither one of the first walk nor one of the second is the one between
them. -/
theorem eq_of_mul_child {a b : Walk α} {name : α} {front rest : List α}
    (h : (a * (child name * b)).down = front ++ name :: rest)
    (ha : ¬ front ++ [name] <+: a.down) (hb : ¬ name :: rest <:+ b.down) :
    front = a.down ∧ rest = b.down := by
  obtain ⟨taken, htaken, hdown⟩ := exists_prefix_of_mul_child a name b
  rw [h] at hdown
  rcases List.append_eq_append_iff.1 hdown with ⟨more, rfl, hrest⟩ | ⟨more, rfl, hb'⟩
  · rcases more with - | ⟨head, more⟩
    · exact absurd (hrest ▸ List.suffix_refl _) hb
    · obtain ⟨rfl, htail⟩ := List.cons.inj hrest
      have hprefix : front ++ [name] <+: a.down ++ [name] := by
        refine List.IsPrefix.trans ⟨more, ?_⟩ htaken
        rw [List.append_assoc]
        rfl
      rcases List.prefix_concat_iff.1 hprefix with heq | hprefix
      · obtain rfl := (List.append_inj' heq rfl).1
        have hlen := htaken.length_le
        simp only [List.length_append, List.length_cons, List.length_nil] at hlen
        obtain rfl : more = [] := List.eq_nil_of_length_eq_zero (by omega)
        exact ⟨rfl, htail⟩
      · exact absurd hprefix ha
  · exact absurd ⟨more, hb'.symm⟩ hb

/-- The names of a walk are among those of its parts. -/
theorem mem_mul_down {a b : Walk α} {name : α} (h : name ∈ (a * b).down) :
    name ∈ a.down ∨ name ∈ b.down := by
  rcases List.mem_append.1 h with h | h
  · exact .inl (List.mem_of_mem_take h)
  · exact .inr h

end Walk

end Neoip
