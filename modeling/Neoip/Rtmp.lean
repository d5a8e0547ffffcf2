/-
Neoip/Rtmp.lean

The packets of the flash protocol and how they are written: `rtmp_pkthd_t` and
`rtmp_build_t`.

A header is twelve bytes: the channel, three 24 bit fields (the timestamp, the
length of the body, then the type on one byte), and the stream, which alone is
little endian.  The two high bits of its first byte say how much of it is there
when it is read: a header of eight, four or one bytes takes what it lacks from
the one before it on the channel, so `unserial` starts from a header and writes
over it.  The builder never leaves anything out, and it writes the channel as
the whole first byte.

A body is cut in chunks of 128 bytes; each but the first follows a header of
one byte.

Main results: `overlay_spec`, what a header changes of the one it is written
over, and `unserial_serialize`, that a header is read back as it was written
when its channel fits in six bits.
-/
import Neoip.Bitfield

namespace Neoip

/-! ### `rtmp_pkthd_t` -/

/-- `rtmp_pkthd_t`.  The timestamp is a `delay_t`, in milliseconds.  The type is the byte of
a `rtmp_type_t`, and `none` is its `NONE`, which no byte stands for. -/
structure RtmpPkthd where
  channel_id : UInt8
  timestamp : ℕ
  body_length : ℕ
  type : Option UInt8
  stream_id : UInt32
deriving DecidableEq, Repr

namespace RtmpPkthd

/-- `CHUNK_MAXLEN`. -/
def chunkMaxlen : ℕ := 128

/-- A header nothing has been written over.  Only the timestamp and the type have a
constructor; as long as the type is `NONE` nobody looks at the other fields. -/
def null : RtmpPkthd where
  channel_id := 0
  timestamp := 0xFFFFFFFFFFFFFFF
  body_length := 0
  type := none
  stream_id := 0

def isNull (pkthd : RtmpPkthd) : Bool := pkthd.type.isNone

/-- `DOSERIAL_24BIT`. -/
def doserial24bit (value : ℕ) : Datum :=
  [UInt8.ofNat (value / 2 ^ 16), UInt8.ofNat (value / 2 ^ 8), UInt8.ofNat value]

/-- `UNSERIAL_24BIT`. -/
def unserial24bit (b₀ b₁ b₂ : UInt8) : ℕ := b₀.toNat * 2 ^ 16 + b₁.toNat * 2 ^ 8 + b₂.toNat

/-- The stream, with its bytes swapped and then in the network's order. -/
def writeStreamId (stream_id : UInt32) : Datum :=
  [UInt8.ofNat stream_id.toNat, UInt8.ofNat (stream_id.toNat / 2 ^ 8),
    UInt8.ofNat (stream_id.toNat / 2 ^ 16), UInt8.ofNat (stream_id.toNat / 2 ^ 24)]

def readStreamId (b₀ b₁ b₂ b₃ : UInt8) : UInt32 :=
  UInt32.ofNat (b₀.toNat + b₁.toNat * 2 ^ 8 + b₂.toNat * 2 ^ 16 + b₃.toNat * 2 ^ 24)

/-- `operator <<`.  The timestamp goes through `to_msec_32bit`, and `NONE`, which is `-1`,
through a `uint8_t`. -/
def serialize (pkthd : RtmpPkthd) : Datum :=
  pkthd.channel_id :: (doserial24bit (pkthd.timestamp % 2 ^ 32)
    ++ doserial24bit pkthd.body_length ++ pkthd.type.getD 0xFF :: writeStreamId pkthd.stream_id)

/-- `pkthd_len_arr`, at the two high bits of the first byte. -/
def pkthdLen (first_byte : UInt8) : ℕ := [12, 8, 4, 1].getD ((first_byte >>> 6) &&& 0x3).toNat 0

/-- The channel in the first byte. -/
def channelIdOf (first_byte : UInt8) : UInt8 := first_byte &&& 0x3F

/-- What `operator >>` writes over the header, when there are enough bytes. -/
def overlay (pkthd : RtmpPkthd) : Datum → Option RtmpPkthd
  | [] => none
  | first_byte :: serial =>
    let pkthd := { pkthd with channel_id := channelIdOf first_byte }
    if pkthdLen first_byte < 4 then some pkthd else
    match serial with
    | t₀ :: t₁ :: t₂ :: serial =>
      let pkthd := { pkthd with timestamp := unserial24bit t₀ t₁ t₂ }
      if pkthdLen first_byte < 8 then some pkthd else
      match serial with
      | l₀ :: l₁ :: l₂ :: type :: serial =>
        let pkthd := { pkthd with body_length := unserial24bit l₀ l₁ l₂, type := some type }
        if pkthdLen first_byte < 12 then some pkthd else
        match serial with
        | s₀ :: s₁ :: s₂ :: s₃ :: _ =>
          some { pkthd with stream_id := readStreamId s₀ s₁ s₂ s₃ }
        | _ => none
      | _ => none
    | _ => none

/-- `operator >>`, which does not reset the header; `none` is a `serial_except_t`. -/
def unserial (pkthd : RtmpPkthd) (serial : Datum) : Option RtmpPkthd :=
  (pkthd.overlay serial).filter fun pkthd => !pkthd.isNull

/-! ### The fields of the first byte -/

theorem toNat_channelIdOf (first_byte : UInt8) :
    (channelIdOf first_byte).toNat = first_byte.toNat % 64 := by
  show (first_byte &&& 0x3F).toNat = _
  rw [UInt8.toNat_and]
  exact Nat.and_two_pow_sub_one_eq_mod first_byte.toNat 6

theorem toNat_form (first_byte : UInt8) :
    ((first_byte >>> 6) &&& 0x3).toNat = first_byte.toNat / 64 := by
  have hlt := first_byte.toNat_lt
  rw [UInt8.toNat_and, UInt8.toNat_shiftRight]
  have hform : first_byte.toNat >>> 6 &&& 2 ^ 2 - 1 = first_byte.toNat >>> 6 % 2 ^ 2 :=
    Nat.and_two_pow_sub_one_eq_mod _ 2
  have hshift : first_byte.toNat >>> 6 = first_byte.toNat / 64 := Nat.shiftRight_eq_div_pow _ 6
  show first_byte.toNat >>> 6 &&& 3 = _
  rw [show (3 : ℕ) = 2 ^ 2 - 1 from rfl, hform, hshift]
  omega

theorem pkthdLen_eq (first_byte : UInt8) :
    pkthdLen first_byte = [12, 8, 4, 1].getD (first_byte.toNat / 64) 0 := by
  rw [pkthdLen, toNat_form]

theorem pkthdLen_cases (first_byte : UInt8) :
    (first_byte.toNat / 64 = 0 ∧ pkthdLen first_byte = 12)
      ∨ (first_byte.toNat / 64 = 1 ∧ pkthdLen first_byte = 8)
      ∨ (first_byte.toNat / 64 = 2 ∧ pkthdLen first_byte = 4)
      ∨ (first_byte.toNat / 64 = 3 ∧ pkthdLen first_byte = 1) := by
  have hlt := first_byte.toNat_lt
  have hform : first_byte.toNat / 64 = 0 ∨ first_byte.toNat / 64 = 1
      ∨ first_byte.toNat / 64 = 2 ∨ first_byte.toNat / 64 = 3 := by omega
  rcases hform with h | h | h | h <;> simp [pkthdLen_eq, h]

theorem pkthdLen_pos (first_byte : UInt8) : 0 < pkthdLen first_byte := by
  rcases pkthdLen_cases first_byte with h | h | h | h <;> omega

theorem pkthdLen_le (first_byte : UInt8) : pkthdLen first_byte ≤ 12 := by
  rcases pkthdLen_cases first_byte with h | h | h | h <;> omega

/-! ### What a header changes -/

/-- The field of the length, in a header which has it. -/
def announcedLength (serial : Datum) : ℕ :=
  unserial24bit (serial.getD 4 0) (serial.getD 5 0) (serial.getD 6 0)

theorem announcedLength_take {serial : Datum} {n : ℕ} (hn : 7 ≤ n) :
    announcedLength (serial.take n) = announcedLength serial := by
  have hget : ∀ i < 7, (serial.take n).getD i 0 = serial.getD i 0 := fun i hi => by
    rw [List.getD_eq_getElem?_getD, List.getD_eq_getElem?_getD, List.getElem?_take, if_pos (by omega)]
  simp only [announcedLength, hget 4 (by omega), hget 5 (by omega), hget 6 (by omega)]

/-- A header of four bytes or one leaves the type and the length as they are; the others
carry both. -/
theorem overlay_spec (pkthd : RtmpPkthd) {first_byte : UInt8} {rest : Datum}
    (hlen : pkthdLen first_byte ≤ (first_byte :: rest).length) :
    ∃ hd, pkthd.overlay (first_byte :: rest) = some hd
      ∧ hd.channel_id = channelIdOf first_byte
      ∧ (pkthdLen first_byte < 8 → hd.type = pkthd.type ∧ hd.body_length = pkthd.body_length)
      ∧ (8 ≤ pkthdLen first_byte →
          hd.type.isSome ∧ hd.body_length = announcedLength (first_byte :: rest)) := by
  rcases pkthdLen_cases first_byte with ⟨-, h⟩ | ⟨-, h⟩ | ⟨-, h⟩ | ⟨-, h⟩ <;> rw [h] at hlen
  · rcases rest with - | ⟨t₀, - | ⟨t₁, - | ⟨t₂, - | ⟨l₀, - | ⟨l₁, - | ⟨l₂, - | ⟨type, - | ⟨s₀,
      - | ⟨s₁, - | ⟨s₂, - | ⟨s₃, rest⟩⟩⟩⟩⟩⟩⟩⟩⟩⟩⟩ <;>
      simp_all [overlay, announcedLength]
  · rcases rest with - | ⟨t₀, - | ⟨t₁, - | ⟨t₂, - | ⟨l₀, - | ⟨l₁, - | ⟨l₂, - | ⟨type,
      rest⟩⟩⟩⟩⟩⟩⟩ <;>
      simp_all [overlay, announcedLength]
  · rcases rest with - | ⟨t₀, - | ⟨t₁, - | ⟨t₂, rest⟩⟩⟩ <;> simp_all [overlay]
  · simp [overlay, h]

/-! ### A header as it is written -/

theorem unserial24bit_doserial24bit {value : ℕ} (h : value < 2 ^ 24) :
    unserial24bit (UInt8.ofNat (value / 2 ^ 16)) (UInt8.ofNat (value / 2 ^ 8))
      (UInt8.ofNat value) = value := by
  simp only [unserial24bit, UInt8.toNat_ofNat']
  omega

theorem readStreamId_writeStreamId (stream_id : UInt32) :
    readStreamId (UInt8.ofNat stream_id.toNat) (UInt8.ofNat (stream_id.toNat / 2 ^ 8))
      (UInt8.ofNat (stream_id.toNat / 2 ^ 16)) (UInt8.ofNat (stream_id.toNat / 2 ^ 24))
      = stream_id := by
  have hlt := stream_id.toNat_lt
  apply UInt32.toNat_inj.1
  simp only [readStreamId, UInt8.toNat_ofNat', UInt32.toNat_ofNat']
  omega

theorem channelIdOf_of_lt {channel_id : UInt8} (h : channel_id.toNat < 64) :
    channelIdOf channel_id = channel_id := by
  apply UInt8.toNat_inj.1
  rw [toNat_channelIdOf, Nat.mod_eq_of_lt h]

theorem pkthdLen_of_lt {channel_id : UInt8} (h : channel_id.toNat < 64) :
    pkthdLen channel_id = 12 := by
  rcases pkthdLen_cases channel_id with h' | h' | h' | h' <;> omega

/-- The byte before a chunk which is not the first one of its body. -/
def separator (channel_id : UInt8) : UInt8 := 0xC0 ||| channel_id

theorem toNat_separator {channel_id : UInt8} (h : channel_id.toNat < 64) :
    (separator channel_id).toNat = 192 + channel_id.toNat := by
  rw [separator, UInt8.toNat_or]
  exact (Nat.two_pow_add_eq_or_of_lt (i := 6) h 3).symm

theorem channelIdOf_separator {channel_id : UInt8} (h : channel_id.toNat < 64) :
    channelIdOf (separator channel_id) = channel_id := by
  apply UInt8.toNat_inj.1
  rw [toNat_channelIdOf, toNat_separator h]
  omega

theorem pkthdLen_separator {channel_id : UInt8} (h : channel_id.toNat < 64) :
    pkthdLen (separator channel_id) = 1 := by
  have := toNat_separator h
  rcases pkthdLen_cases (separator channel_id) with h' | h' | h' | h' <;> omega

/-- **A header is read back** as it was written, over any other, when its channel fits in six
bits and it has a type. -/
theorem unserial_serialize (last : RtmpPkthd) {pkthd : RtmpPkthd}
    (hchannel : pkthd.channel_id.toNat < 64) (htype : pkthd.isNull = false)
    (htimestamp : pkthd.timestamp < 2 ^ 24) (hlength : pkthd.body_length < 2 ^ 24) :
    last.unserial pkthd.serialize = some pkthd := by
  obtain ⟨channel_id, timestamp, body_length, type, stream_id⟩ := pkthd
  obtain ⟨type, rfl⟩ : ∃ t, type = some t :=
    Option.isSome_iff_exists.1 (Option.isNone_eq_false_iff.1 htype)
  have hover : last.overlay (serialize ⟨channel_id, timestamp, body_length, some type, stream_id⟩)
      = some ⟨channel_id, timestamp, body_length, some type, stream_id⟩ := by
    have h32 : timestamp % 2 ^ 32 = timestamp := Nat.mod_eq_of_lt (by dsimp only at htimestamp; omega)
    simp only [serialize, doserial24bit, writeStreamId, List.cons_append, List.nil_append, overlay,
      pkthdLen_of_lt hchannel, channelIdOf_of_lt hchannel, h32, Option.getD_some,
      unserial24bit_doserial24bit htimestamp, unserial24bit_doserial24bit hlength,
      readStreamId_writeStreamId]
    rfl
  rw [unserial, hover]
  rfl

/-- The byte between two chunks is a header which changes nothing. -/
theorem unserial_separator {pkthd : RtmpPkthd} (hchannel : pkthd.channel_id.toNat < 64)
    (htype : pkthd.isNull = false) :
    pkthd.unserial [separator pkthd.channel_id] = some pkthd := by
  have hover : pkthd.overlay [separator pkthd.channel_id] = some pkthd := by
    simp [overlay, pkthdLen_separator hchannel, channelIdOf_separator hchannel]
  rw [unserial, hover, Option.filter_some, htype]
  rfl

end RtmpPkthd

/-! ### `rtmp_build_t` -/

namespace RtmpBuild

/-- The loop of `serialize` from an offset on. -/
def bodyChunks (channel_id : UInt8) (rtmp_body : Datum) : ℕ → ℕ → Datum
  | 0, _ => []
  | fuel + 1, offset =>
    if offset < rtmp_body.length then
      let remaining := rtmp_body.length - offset
      let chunk_len := min remaining RtmpPkthd.chunkMaxlen
      (if 0 < offset then [RtmpPkthd.separator channel_id] else [])
        ++ (rtmp_body.drop offset).take chunk_len
        ++ bodyChunks channel_id rtmp_body fuel (offset + RtmpPkthd.chunkMaxlen)
    else []

/-- `serialize`: the length in the header is the one of the body. -/
def serialize (rtmp_pkthd : RtmpPkthd) (rtmp_body : Datum) : Datum :=
  let rtmp_pkthd := { rtmp_pkthd with body_length := rtmp_body.length }
  rtmp_pkthd.serialize
    ++ bodyChunks rtmp_pkthd.channel_id rtmp_body rtmp_body.length 0

end RtmpBuild

end Neoip
