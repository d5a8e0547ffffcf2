/-
Neoip/Codec.lean

Codecs: values which are written as words, and read back from the front of a
longer word.

`Codec σ α` writes an `α` with the letters `σ`.  What has been written is read
back, with what follows it (`get_put`), and reading takes the letters from the
front (`suffix`).  So the values in a word do not depend on how far its reader
has looked: they are the ones which a writer put there (`eq_of_get_put`), and
what a reader has taken is a prefix (`taken_append`).

Codecs are made of other ones: a fixed number of letters, two values, a counted
array.
-/
import Mathlib.Data.List.Infix
import Mathlib.Logic.Equiv.Defs
import Mathlib.Tactic.Common

namespace Neoip

/-- A format: what is put is got back, in front of anything. -/
structure Codec (σ α : Type*) where
  put : α → List σ
  get : List σ → Option (α × List σ)
  get_put : ∀ a rest, get (put a ++ rest) = some (a, rest)
  suffix : ∀ {word a rest}, get word = some (a, rest) → rest <:+ word

namespace Codec

variable {σ α β : Type*}

/-- A value which was put at the front is the one which is read there. -/
theorem eq_of_get_put (c : Codec σ α) {a b : α} {word rest rest' : List σ}
    (h : c.get word = some (b, rest')) (hword : word = c.put a ++ rest) : b = a ∧ rest' = rest := by
  rw [hword, c.get_put, Option.some.injEq, Prod.mk.injEq] at h
  exact ⟨h.1.symm, h.2.symm⟩

/-- What has been taken of a word of which `rest` is left. -/
def taken (word rest : List σ) : List σ := word.take (word.length - rest.length)

theorem taken_left (front rest : List σ) : taken (front ++ rest) rest = front := by
  rw [taken, List.length_append, Nat.add_sub_cancel, List.take_left' rfl]

theorem taken_append {word rest : List σ} (h : rest <:+ word) : taken word rest ++ rest = word := by
  obtain ⟨front, rfl⟩ := h
  rw [taken_left]

/-- A value of another type, which stands for it. -/
def map (c : Codec σ α) (e : α ≃ β) : Codec σ β where
  put b := c.put (e.symm b)
  get word := (c.get word).map fun r => (e r.1, r.2)
  get_put b rest := by
    rw [c.get_put, Option.map_some, e.apply_symm_apply]
  suffix h := by
    obtain ⟨⟨a, rest⟩, hget, heq⟩ := Option.map_eq_some_iff.1 h
    rw [Prod.mk.injEq] at heq
    exact heq.2 ▸ c.suffix hget

/-- One value after the other. -/
def prod (c : Codec σ α) (d : Codec σ β) : Codec σ (α × β) where
  put ab := c.put ab.1 ++ d.put ab.2
  get word := (c.get word).bind fun a => (d.get a.2).map fun b => ((a.1, b.1), b.2)
  get_put ab rest := by
    rw [List.append_assoc, c.get_put, Option.bind_some, d.get_put]
    rfl
  suffix h := by
    obtain ⟨a, ha, hb⟩ := Option.bind_eq_some_iff.1 h
    obtain ⟨b, hb, heq⟩ := Option.map_eq_some_iff.1 hb
    rw [Prod.mk.injEq] at heq
    exact heq.2 ▸ (d.suffix hb).trans (c.suffix ha)

/-- One letter. -/
def letter : Codec σ σ where
  put a := [a]
  get
    | [] => none
    | a :: rest => some (a, rest)
  get_put _ _ := rfl
  suffix {word _ rest} h := by
    cases word with
    | nil => cases h
    | cons a word =>
      obtain ⟨-, rfl⟩ := Prod.mk.injEq .. ▸ Option.some.inj h
      exact List.suffix_cons _ _

/-- A word of `n` letters. -/
def fixed (n : ℕ) : Codec σ { word : List σ // word.length = n } where
  put word := word.1
  get word :=
    if h : n ≤ word.length then some (⟨word.take n, List.length_take_of_le h⟩, word.drop n)
    else none
  get_put word rest := by
    obtain ⟨word, rfl⟩ := word
    have hle : word.length ≤ (word ++ rest).length := by
      rw [List.length_append]
      exact Nat.le_add_right _ _
    rw [dif_pos hle]
    congr 2
    · exact Subtype.ext (List.take_left' rfl)
    · exact List.drop_left' rfl
  suffix h := by
    split_ifs at h
    rw [Option.some.injEq, Prod.mk.injEq] at h
    exact h.2 ▸ List.drop_suffix _ _

/-! ### Arrays -/

/-- `n` values. -/
def getN (c : Codec σ α) : ℕ → List σ → Option (List α × List σ)
  | 0, word => some ([], word)
  | n + 1, word =>
    (c.get word).bind fun a => (c.getN n a.2).map fun as => (a.1 :: as.1, as.2)

theorem getN_put (c : Codec σ α) (as : List α) (rest : List σ) :
    c.getN as.length (as.flatMap c.put ++ rest) = some (as, rest) := by
  induction as with
  | nil => rfl
  | cons a as ih =>
    rw [List.flatMap_cons, List.append_assoc, List.length_cons, getN, c.get_put, Option.bind_some,
      ih]
    rfl

theorem getN_suffix (c : Codec σ α) {n : ℕ} {word rest : List σ} {as : List α}
    (h : c.getN n word = some (as, rest)) : rest <:+ word := by
  induction n generalizing word as with
  | zero =>
    rw [getN, Option.some.injEq, Prod.mk.injEq] at h
    exact h.2 ▸ List.suffix_refl _
  | succ n ih =>
    obtain ⟨a, ha, has⟩ := Option.bind_eq_some_iff.1 h
    obtain ⟨tail, htail, heq⟩ := Option.map_eq_some_iff.1 has
    obtain rfl : tail.2 = rest := congrArg Prod.snd heq
    exact (ih htail).trans (c.suffix ha)

/-- An array: how many values there are, and the values. -/
def arr {bound : ℕ} (count : Codec σ (Fin bound)) (c : Codec σ α) :
    Codec σ { as : List α // as.length < bound } where
  put as := count.put ⟨as.1.length, as.2⟩ ++ as.1.flatMap c.put
  get word := (count.get word).bind fun n => (c.getN n.1 n.2).bind fun as =>
    if h : as.1.length < bound then some (⟨as.1, h⟩, as.2) else none
  get_put as rest := by
    rw [List.append_assoc, count.get_put, Option.bind_some]
    show ((c.getN as.1.length _).bind _) = _
    rw [c.getN_put, Option.bind_some, dif_pos as.2]
  suffix h := by
    obtain ⟨n, hn, has⟩ := Option.bind_eq_some_iff.1 h
    obtain ⟨as, has, heq⟩ := Option.bind_eq_some_iff.1 has
    split_ifs at heq
    rw [Option.some.injEq, Prod.mk.injEq] at heq
    exact heq.2 ▸ (c.getN_suffix has).trans (count.suffix hn)

end Codec

end Neoip
