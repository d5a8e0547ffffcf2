/-
Neoip/SerialCodec.lean

The codecs of `serial_t`: integers, the most significant byte first, a
`datum_t`, and a `gen_id_t`.

A `ShortDatum` is a `datum_t` whose length fits in the `uint32_t` it is written
with.
-/
import Neoip.Codec
import Neoip.GenId
import Neoip.Wire

namespace Neoip

/-- What a `datum_t` may hold. -/
abbrev ShortDatum := { buffer : Datum // buffer.length < 2 ^ 32 }

namespace Codec

/-- `uint32_t`, the most significant byte first. -/
def uint32 : Codec UInt8 (Fin (2 ^ 32)) where
  put n := writeUint32 n.1
  get word :=
    (readUint32 word).bind fun n => if h : n.1 < 2 ^ 32 then some (⟨n.1, h⟩, n.2) else none
  get_put n rest := by
    rw [readUint32_writeUint32 n.2, Option.bind_some, dif_pos n.2]
  suffix h := by
    obtain ⟨⟨n, tail⟩, hread, heq⟩ := Option.bind_eq_some_iff.1 h
    split_ifs at heq
    rw [Option.some.injEq, Prod.mk.injEq] at heq
    rw [← heq.2]
    obtain ⟨-, hword⟩ := eq_of_readUint32 hread
    exact hword ▸ List.suffix_append _ _

/-- A datum, with its length before it. -/
def datum : Codec UInt8 ShortDatum := arr uint32 letter

/-- `uint64_t`. -/
def uint64 : Codec UInt8 (Fin (2 ^ 64)) := (prod uint32 uint32).map
  { toFun := fun w => ⟨w.1.1 * 2 ^ 32 + w.2.1, by omega⟩
    invFun := fun n => (⟨n.1 / 2 ^ 32, by omega⟩, ⟨n.1 % 2 ^ 32, by omega⟩)
    left_inv := fun w => by
      refine Prod.ext (Fin.ext ?_) (Fin.ext ?_)
      · show (w.1.1 * 2 ^ 32 + w.2.1) / 2 ^ 32 = w.1.1
        omega
      · show (w.1.1 * 2 ^ 32 + w.2.1) % 2 ^ 32 = w.2.1
        omega
    right_inv := fun n => Fin.ext (by
      show n.1 / 2 ^ 32 * 2 ^ 32 + n.1 % 2 ^ 32 = n.1
      omega) }

def uint16 : Codec UInt8 UInt16 := (prod letter letter).map
  { toFun := fun w => w.1.toUInt16 * 256 + w.2.toUInt16
    invFun := fun n => ((n / 256).toUInt8, n.toUInt8)
    left_inv := fun w => by
      have h₁ := w.1.toNat_lt
      have h₂ := w.2.toNat_lt
      refine Prod.ext (UInt8.toNat_inj.1 ?_) (UInt8.toNat_inj.1 ?_)
      · simp only [UInt16.toNat_toUInt8, UInt16.toNat_div, UInt16.toNat_add, UInt16.toNat_mul,
          UInt8.toNat_toUInt16, UInt16.reduceToNat]
        omega
      · simp only [UInt16.toNat_toUInt8, UInt16.toNat_add, UInt16.toNat_mul,
          UInt8.toNat_toUInt16, UInt16.reduceToNat]
        omega
    right_inv := fun n => by
      have h := n.toNat_lt
      apply UInt16.toNat_inj.1
      simp only [UInt16.toNat_toUInt8, UInt16.toNat_div, UInt16.toNat_add, UInt16.toNat_mul,
        UInt8.toNat_toUInt16, UInt16.reduceToNat]
      omega }

/-- A `gen_id_t`, as its bytes. -/
def genId (nb_byte : ℕ) : Codec UInt8 (GenId nb_byte) where
  put := GenId.toStdstring
  get word :=
    if nb_byte ≤ word.length then
      some (BitVec.ofNat _ (GenId.ofBytes (word.take nb_byte)), word.drop nb_byte)
    else none
  get_put id rest := by
    have hlen := GenId.length_toStdstring id
    have hpow : 256 ^ nb_byte = 2 ^ (8 * nb_byte) := by rw [Nat.pow_mul]
    rw [if_pos (by rw [List.length_append, hlen]; exact Nat.le_add_right _ _),
      List.take_left' hlen, List.drop_left' hlen, GenId.toStdstring, GenId.ofBytes_bytesOf, hpow,
      Nat.mod_eq_of_lt id.isLt, BitVec.ofNat_toNat, BitVec.setWidth_eq]
  suffix h := by
    split_ifs at h
    rw [Option.some.injEq, Prod.mk.injEq] at h
    exact h.2 ▸ List.drop_suffix _ _

end Codec

end Neoip
