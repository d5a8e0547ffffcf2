/-
Neoip/Keystream.lean

A stream under a keystream: each item is mixed with the key of its place.

Mixing twice at the same place gives the item back, so whoever mixes from the place
where the other one did reads what was written, however the stream is cut
(`Carried`): what was sent is what was got followed by what the wire holds.
-/
import Mathlib.Data.List.Basic
import Mathlib.Tactic.Common

namespace Neoip

variable {α κ : Type*} (mix : α → κ → α) (ks : ℕ → κ)

/-- The items are mixed with the keys from the place `pos` on. -/
def crypt : ℕ → List α → List α
  | _, [] => []
  | pos, a :: l => mix a (ks pos) :: crypt (pos + 1) l

variable {mix ks} {pos start : ℕ} {sent got wire : List α}

theorem crypt_nil : crypt mix ks pos [] = [] := rfl

theorem length_crypt (l : List α) : (crypt mix ks pos l).length = l.length := by
  induction l generalizing pos with
  | nil => rfl
  | cons a l ih => rw [crypt, List.length_cons, List.length_cons, ih]

theorem crypt_append (l l' : List α) :
    crypt mix ks pos (l ++ l') = crypt mix ks pos l ++ crypt mix ks (pos + l.length) l' := by
  induction l generalizing pos with
  | nil => rfl
  | cons a l ih =>
    rw [List.cons_append, crypt, crypt, ih, List.cons_append, List.length_cons,
      Nat.add_right_comm, Nat.add_assoc]

/-- Mixing twice at the same place. -/
theorem crypt_crypt (hmix : ∀ a k, mix (mix a k) k = a) (l : List α) :
    crypt mix ks pos (crypt mix ks pos l) = l := by
  induction l generalizing pos with
  | nil => rfl
  | cons a l ih => rw [crypt, crypt, hmix, ih]

variable (mix ks) in
/-- The wire holds what was sent and not got, mixed from the place where the first
item of it is. -/
def Carried (start : ℕ) (sent got wire : List α) : Prop :=
  ∃ rest, sent = got ++ rest ∧ wire = crypt mix ks (start + got.length) rest

theorem Carried.nil : Carried mix ks start [] [] [] := ⟨[], rfl, rfl⟩

theorem carried_of_sent (sent : List α) : Carried mix ks start sent [] (crypt mix ks start sent) :=
  ⟨sent, rfl, rfl⟩

theorem Carried.send (h : Carried mix ks start sent got wire) (data : List α) :
    Carried mix ks start (sent ++ data) got
      (wire ++ crypt mix ks (start + sent.length) data) := by
  obtain ⟨rest, rfl, rfl⟩ := h
  refine ⟨rest ++ data, List.append_assoc .., ?_⟩
  rw [crypt_append, List.length_append, Nat.add_assoc]

theorem Carried.recv (hmix : ∀ a k, mix (mix a k) k = a) {chunk wire' : List α}
    (h : Carried mix ks start sent got (chunk ++ wire')) :
    Carried mix ks start sent (got ++ crypt mix ks (start + got.length) chunk) wire' := by
  obtain ⟨rest, rfl, hwire⟩ := h
  -- the chunk is the mix of the first items of the rest
  have hlen : rest.length = chunk.length + wire'.length := by
    have hcrypt : (crypt mix ks (start + got.length) rest).length = rest.length :=
      length_crypt rest
    rw [← hcrypt, ← hwire, List.length_append]
  rw [← List.take_append_drop chunk.length rest, crypt_append] at hwire
  have htake : (rest.take chunk.length).length = chunk.length := by
    rw [List.length_take]
    omega
  obtain ⟨hchunk, hwire'⟩ := List.append_inj hwire (by rw [length_crypt, htake])
  refine ⟨rest.drop chunk.length, ?_, ?_⟩
  · rw [hchunk, crypt_crypt hmix, ← hchunk, List.append_assoc, List.take_append_drop]
  · rw [hwire', List.length_append, length_crypt, htake, Nat.add_assoc]

/-- Everything which is in the wire, once got, completes what was sent. -/
theorem Carried.sent_eq (hmix : ∀ a k, mix (mix a k) k = a)
    (h : Carried mix ks start sent got wire) :
    got ++ crypt mix ks (start + got.length) wire = sent := by
  obtain ⟨rest, rfl, rfl⟩ := h
  rw [crypt_crypt hmix]

end Neoip
