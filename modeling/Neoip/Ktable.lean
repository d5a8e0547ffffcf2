/-
Neoip/Ktable.lean

A table of nodes in buckets of a bounded height.

A node is in the list of its bucket.  When the bucket is full, one of its nodes
can be checked for the sake of a candidate, which is not in the table and takes
the place of the node if the node is found dead.

* `add` puts a node at the tail of its bucket, `touch` puts it there again;
* `check` gives a node a candidate and `uncheck` takes it away;
* `remove` takes a node out.

Main results: each of them keeps the table well formed (`WF.add`, `WF.touch`,
`WF.check`, `WF.uncheck`, `WF.remove`), and so does the replacement of a checked
node by its candidate (`WF.replace`).
-/
import Mathlib.Data.List.Nodup
import Mathlib.Logic.Function.Basic
import Mathlib.Tactic.Common

namespace Neoip

/-- The abstract table: its nodes, and the list of each bucket. -/
@[ext]
structure Ktable (ι : Type*) where
  /-- Nothing where there is no node, and the candidate of a node while it is checked. -/
  node : ι → Option (Option ι)
  list : ℕ → List ι

namespace Ktable

variable {ι : Type*}

/-- The nodes are in the lists of their buckets, once, and the candidates are not nodes. -/
structure WF (bucket : ι → ℕ) (height : ℕ) (t : Ktable ι) : Prop where
  nodup : ∀ i, (t.list i).Nodup
  mem_iff : ∀ i p, p ∈ t.list i ↔ (t.node p).isSome ∧ bucket p = i
  length_le : ∀ i, (t.list i).length ≤ height
  fresh : ∀ p c, t.node p = some (some c) → t.node c = none
  inj : ∀ p q c, t.node p = some (some c) → t.node q = some (some c) → p = q
  same : ∀ p c, t.node p = some (some c) → bucket c = bucket p

variable [DecidableEq ι]

def add (bucket : ι → ℕ) (p : ι) (t : Ktable ι) : Ktable ι where
  node := Function.update t.node p (some none)
  list := Function.update t.list (bucket p) (t.list (bucket p) ++ [p])

def touch (bucket : ι → ℕ) (p : ι) (t : Ktable ι) : Ktable ι where
  node := t.node
  list := Function.update t.list (bucket p) ((t.list (bucket p)).filter (· ≠ p) ++ [p])

def check (p c : ι) (t : Ktable ι) : Ktable ι where
  node := Function.update t.node p (some (some c))
  list := t.list

def uncheck (p : ι) (t : Ktable ι) : Ktable ι where
  node := Function.update t.node p (some none)
  list := t.list

def remove (bucket : ι → ℕ) (p : ι) (t : Ktable ι) : Ktable ι where
  node := Function.update t.node p none
  list := Function.update t.list (bucket p) ((t.list (bucket p)).filter (· ≠ p))

variable {bucket : ι → ℕ} {height : ℕ} {t : Ktable ι} {p c : ι}

omit [DecidableEq ι] in
/-- The lists after one of them is given other elements. -/
theorem mem_update {f : ℕ → List ι} {i j : ℕ} {l : List ι} {q : ι} :
    q ∈ Function.update f i l j ↔ if j = i then q ∈ l else q ∈ f j := by
  rw [Function.update_apply]
  split_ifs <;> rfl

/-- The candidates after a node has none any more. -/
theorem node_update_none {o : Option (Option ι)} (ho : ∀ c, o ≠ some (some c)) {q c : ι}
    (h : Function.update t.node p o q = some (some c)) : q ≠ p ∧ t.node q = some (some c) := by
  rw [Function.update_apply] at h
  split_ifs at h with heq
  · exact absurd h (ho c)
  · exact ⟨heq, h⟩

omit [DecidableEq ι] in
theorem WF.mem_list (h : t.WF bucket height) (hp : (t.node p).isSome) : p ∈ t.list (bucket p) :=
  (h.mem_iff (bucket p) p).2 ⟨hp, rfl⟩

theorem WF.length_filter_lt (h : t.WF bucket height) (hp : (t.node p).isSome) :
    ((t.list (bucket p)).filter (· ≠ p)).length < (t.list (bucket p)).length :=
  List.length_filter_lt_length_iff_exists.2 ⟨p, h.mem_list hp, by simp⟩

theorem WF.add (h : t.WF bucket height) (hp : t.node p = none)
    (hc : ∀ q, t.node q ≠ some (some p)) (hlen : (t.list (bucket p)).length < height) :
    (t.add bucket p).WF bucket height where
  nodup i := by
    show (Function.update t.list (bucket p) _ i).Nodup
    rw [Function.update_apply]
    split_ifs
    · apply List.Nodup.append (h.nodup _) (List.nodup_singleton p)
      intro q hq hqp
      rw [List.mem_singleton.1 hqp, h.mem_iff, hp] at hq
      exact absurd hq.1 (by simp)
    · exact h.nodup i
  mem_iff i q := by
    show q ∈ Function.update t.list (bucket p) _ i ↔
      (Function.update t.node p (some none) q).isSome ∧ bucket q = i
    rw [mem_update, Function.update_apply]
    by_cases hq : q = p
    · rw [hq, if_pos rfl]
      split_ifs with hi
      · simp [hi]
      · rw [h.mem_iff, hp]
        simp [Ne.symm hi]
    · rw [if_neg hq, ← h.mem_iff]
      split_ifs with hi
      · simp [hi, hq]
      · rfl
  length_le i := by
    show (Function.update t.list (bucket p) _ i).length ≤ height
    rw [Function.update_apply]
    split_ifs
    · rw [List.length_append]
      exact hlen
    · exact h.length_le i
  fresh q c hq := by
    have hold := (node_update_none (by simp) hq).2
    show Function.update t.node p _ c = none
    rw [Function.update_of_ne]
    · exact h.fresh q c hold
    · rintro rfl
      exact hc q hold
  inj q q' c hq hq' :=
    h.inj q q' c (node_update_none (by simp) hq).2 (node_update_none (by simp) hq').2
  same q c hq := h.same q c (node_update_none (by simp) hq).2

theorem WF.touch (h : t.WF bucket height) (hp : (t.node p).isSome) :
    (t.touch bucket p).WF bucket height where
  nodup i := by
    show (Function.update t.list (bucket p) _ i).Nodup
    rw [Function.update_apply]
    split_ifs
    · apply List.Nodup.append ((h.nodup _).filter _) (List.nodup_singleton p)
      intro q hq hqp
      rw [List.mem_singleton.1 hqp] at hq
      exact absurd (List.mem_filter.1 hq).2 (by simp)
    · exact h.nodup i
  mem_iff i q := by
    show q ∈ Function.update t.list (bucket p) _ i ↔ (t.node q).isSome ∧ bucket q = i
    rw [mem_update, ← h.mem_iff]
    split_ifs with hi
    · rw [hi]
      by_cases hq : q = p
      · simp [hq, h.mem_list hp]
      · simp [hq]
    · rfl
  length_le i := by
    show (Function.update t.list (bucket p) _ i).length ≤ height
    rw [Function.update_apply]
    split_ifs
    · rw [List.length_append]
      exact Nat.lt_of_lt_of_le (h.length_filter_lt hp) (h.length_le _)
    · exact h.length_le i
  fresh := h.fresh
  inj := h.inj
  same := h.same

theorem WF.check (h : t.WF bucket height) (hp : t.node p = some none) (hnew : t.node c = none)
    (hc : ∀ q, t.node q ≠ some (some c)) (hbucket : bucket c = bucket p) :
    (t.check p c).WF bucket height := by
  -- a candidate is the new one, or one that was there
  have hnode : ∀ q d, (t.check p c).node q = some (some d) →
      (q = p ∧ d = c) ∨ (q ≠ p ∧ d ≠ c ∧ t.node q = some (some d)) := by
    intro q d hq
    have hupd : Function.update t.node p _ q = some (some d) := hq
    rw [Function.update_apply] at hupd
    split_ifs at hupd with heq
    · exact Or.inl ⟨heq, (Option.some.inj (Option.some.inj hupd)).symm⟩
    · refine Or.inr ⟨heq, ?_, hupd⟩
      rintro rfl
      exact hc q hupd
  constructor
  case nodup => exact h.nodup
  case mem_iff =>
    intro i q
    show q ∈ t.list i ↔ (Function.update t.node p _ q).isSome ∧ bucket q = i
    rw [h.mem_iff, Function.update_apply]
    split_ifs with heq
    · rw [heq, hp]
      rfl
    · rfl
  case length_le => exact h.length_le
  case fresh =>
    intro q d hq
    show Function.update t.node p _ d = none
    have hnone : t.node d = none := by
      rcases hnode q d hq with ⟨-, rfl⟩ | ⟨-, -, hold⟩
      · exact hnew
      · exact h.fresh q d hold
    rw [Function.update_of_ne]
    · exact hnone
    · rintro rfl
      exact Option.some_ne_none _ (hp.symm.trans hnone)
  case inj =>
    intro q q' d hq hq'
    rcases hnode q d hq with ⟨rfl, rfl⟩ | ⟨-, hd, hq⟩ <;>
      rcases hnode q' _ hq' with ⟨rfl, heq⟩ | ⟨-, hd', hq'⟩
    · rfl
    · exact absurd rfl hd'
    · exact absurd heq hd
    · exact h.inj q q' d hq hq'
  case same =>
    intro q d hq
    rcases hnode q d hq with ⟨rfl, rfl⟩ | ⟨-, -, hq⟩
    · exact hbucket
    · exact h.same q d hq

theorem WF.uncheck (h : t.WF bucket height) (hp : (t.node p).isSome) :
    (t.uncheck p).WF bucket height where
  nodup := h.nodup
  mem_iff i q := by
    show q ∈ t.list i ↔ (Function.update t.node p _ q).isSome ∧ bucket q = i
    rw [h.mem_iff, Function.update_apply]
    split_ifs with heq
    · rw [heq, hp]
      rfl
    · rfl
  length_le := h.length_le
  fresh q c hq := by
    have hq := (node_update_none (by simp) hq).2
    have hfresh := h.fresh q c hq
    show Function.update t.node p _ c = none
    rw [Function.update_of_ne]
    · exact hfresh
    · rintro rfl
      rw [hfresh] at hp
      cases hp
  inj q q' c hq hq' :=
    h.inj q q' c (node_update_none (by simp) hq).2 (node_update_none (by simp) hq').2
  same q c hq := h.same q c (node_update_none (by simp) hq).2

theorem WF.remove (h : t.WF bucket height) : (t.remove bucket p).WF bucket height where
  nodup i := by
    show (Function.update t.list (bucket p) _ i).Nodup
    rw [Function.update_apply]
    split_ifs
    · exact (h.nodup _).filter _
    · exact h.nodup i
  mem_iff i q := by
    show q ∈ Function.update t.list (bucket p) _ i ↔
      (Function.update t.node p none q).isSome ∧ bucket q = i
    rw [mem_update, Function.update_apply]
    by_cases hq : q = p
    · rw [hq, if_pos rfl]
      split_ifs with hi
      · simp
      · rw [h.mem_iff]
        simp [Ne.symm hi]
    · rw [if_neg hq, ← h.mem_iff]
      split_ifs with hi
      · simp [hi, hq]
      · rfl
  length_le i := by
    show (Function.update t.list (bucket p) _ i).length ≤ height
    rw [Function.update_apply]
    split_ifs
    · exact Nat.le_trans (List.length_filter_le _ _) (h.length_le _)
    · exact h.length_le i
  fresh q c hq := by
    have hq := (node_update_none (by simp) hq).2
    show Function.update t.node p _ c = none
    rw [Function.update_apply, h.fresh q c hq, ite_self]
  inj q q' c hq hq' :=
    h.inj q q' c (node_update_none (by simp) hq).2 (node_update_none (by simp) hq').2
  same q c hq := h.same q c (node_update_none (by simp) hq).2

/-- The candidate is at the tail of the list which the node was in. -/
theorem list_add_remove (hbucket : bucket c = bucket p) :
    ((t.remove bucket p).add bucket c).list =
      Function.update t.list (bucket p) ((t.list (bucket p)).filter (· ≠ p) ++ [c]) := by
  show Function.update (t.remove bucket p).list (bucket c) _ = _
  rw [hbucket]
  show Function.update (Function.update t.list (bucket p) _) (bucket p)
    (Function.update t.list (bucket p) _ (bucket p) ++ [c]) = _
  rw [Function.update_self, Function.update_idem]

/-- **Replacement**: there is room for the candidate of a node which is taken out. -/
theorem WF.replace (h : t.WF bucket height) (hp : t.node p = some (some c)) :
    ((t.remove bucket p).add bucket c).WF bucket height := by
  have hfresh := h.fresh p c hp
  apply h.remove.add
  · show Function.update t.node p _ c = none
    rw [Function.update_apply, hfresh, ite_self]
  · intro q hq
    obtain ⟨hne, hq⟩ := node_update_none (by simp) hq
    exact hne (h.inj q p c hq hp)
  · show (Function.update t.list (bucket p) _ (bucket c)).length < height
    rw [h.same p c hp, Function.update_self]
    have hsome : (t.node p).isSome := by rw [hp]; rfl
    exact Nat.lt_of_lt_of_le (h.length_filter_lt hsome) (h.length_le _)

end Ktable

end Neoip
