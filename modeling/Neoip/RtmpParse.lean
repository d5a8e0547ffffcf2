/-
Neoip/RtmpParse.lean

The parser of the flash protocol: `rtmp_parse_t`.

What comes from the network is appended to a buffer, which a timer has parsed.
A chunk is a header, full or compressed, and up to 128 bytes of body; it is
taken off the buffer when all of it is there.  The header is completed with the
last one on its channel, whose context also holds the body as far as it has
come.  How much of the body this chunk has is computed from the length the
header announces and the length which is there.

The state remembers what was notified, and the two ways in which the code is
left: an assertion which failed (`assert_failed`; the code goes on as it does
without assertions, where the difference of the two lengths wraps around) and
an exception, which no function here is declared to throw, so that it ends the
process.

Main results: the buffer is always parsed to an end (`parseBuffer_isSome`), and
`always_sound_iff`: parsing is sound, whatever the bytes and however they are
cut, exactly when the first header of each channel carries its type and no
header announces less than what its packet has already (`HeaderOk`).
-/
import Neoip.Rtmp
import Neoip.Run

namespace Neoip

/-! ### The parser -/

/-- `rtmp_parse_chanctx_t`. -/
structure RtmpChanctx where
  channel_id : UInt8
  last_pkthd : RtmpPkthd
  body_buffer : Datum
deriving DecidableEq, Repr

/-- What a `rtmp_parse_t` notifies. -/
inductive RtmpEvent
  | error (reason : String)
  | packet (pkthd : RtmpPkthd) (pktdata : Datum)
deriving DecidableEq, Repr

/-- Whether the parser still reads, and why not. -/
inductive RtmpStatus
  | running
  /-- By its callback, which returned that it shall not be kept. -/
  | deleted
  /-- An exception went through a function which is declared not to throw. -/
  | threw (what : String)
deriving DecidableEq, Repr

/-- `rtmp_parse_t`, and what has happened to it. -/
structure RtmpParse where
  buffer : Datum
  buffer_maxlen : ℕ
  chanctx_db : List RtmpChanctx
  events : List RtmpEvent
  status : RtmpStatus
  assert_failed : Bool
deriving DecidableEq, Repr

/-- A channel nothing has come on. -/
def RtmpChanctx.start (channel_id : UInt8) : RtmpChanctx := ⟨channel_id, .null, []⟩

/-- The difference of two `size_t`, which wraps around. -/
def sizeSub (a b : ℕ) : ℕ := if b ≤ a then a - b else 2 ^ 64 - (b - a)

/-- The length of the chunk after a header. -/
def RtmpChanctx.chunkLen (chanctx : RtmpChanctx) (chunk_pkthd : RtmpPkthd) : ℕ :=
  let remaining_len := sizeSub chunk_pkthd.body_length chanctx.body_buffer.length
  min remaining_len RtmpPkthd.chunkMaxlen

namespace RtmpParse

/-- `BUFFER_MAXLEN`, which the profile has unless somebody sets another. -/
def bufferMaxlen : ℕ := 256 * 1024

def start (buffer_maxlen : ℕ) : RtmpParse := ⟨[], buffer_maxlen, [], [], .running, false⟩

/-- `chanctx_by_channel_id`. -/
def chanctxByChannelId (p : RtmpParse) (channel_id : UInt8) : Option RtmpChanctx :=
  p.chanctx_db.find? fun chanctx => channel_id == chanctx.channel_id

/-- The parser with a context for the channel. -/
def withChanctx (p : RtmpParse) (channel_id : UInt8) : RtmpParse :=
  if (p.chanctxByChannelId channel_id).isSome then p
  else { p with chanctx_db := p.chanctx_db ++ [.start channel_id] }

/-- The context of the channel, which is as if new when there is none. -/
def chanctx (p : RtmpParse) (channel_id : UInt8) : RtmpChanctx :=
  (p.chanctxByChannelId channel_id).getD (.start channel_id)

/-- Write the context of its channel. -/
def setChanctx (p : RtmpParse) (chanctx : RtmpChanctx) : RtmpParse :=
  { p with chanctx_db := p.chanctx_db.map fun other =>
      if chanctx.channel_id == other.channel_id then chanctx else other }

-- The callback: it is told everything which was notified, this event last, and says whether
-- the parser is still there.
variable (keep : List RtmpEvent → Bool)

/-- `notify_callback`. -/
def notifyCallback (p : RtmpParse) (event : RtmpEvent) : RtmpParse :=
  let events := p.events ++ [event]
  { p with events := events, status := if keep events then p.status else .deleted }

/-- `rtmp_parse_chanctx_t::notify_chunk`. -/
def notifyChunk (p : RtmpParse) (chanctx : RtmpChanctx) (chunk_pkthd : RtmpPkthd)
    (chunk_body : Datum) : RtmpParse :=
  let chanctx := { chanctx with
    last_pkthd := chunk_pkthd, body_buffer := chanctx.body_buffer ++ chunk_body }
  let p := p.setChanctx chanctx
  if chunk_pkthd.body_length < chanctx.body_buffer.length then
    p.notifyCallback keep
      (.error "actual rtmp pkt body length is greated than rtmp_pkthd_t one!")
  else if chanctx.body_buffer.length < chunk_pkthd.body_length then p
  else
    let p := p.notifyCallback keep (.packet chunk_pkthd chanctx.body_buffer)
    if p.status = .deleted then p else p.setChanctx { chanctx with body_buffer := [] }

/-- `parse_packet`, and whether it left `stop_parsing` set. -/
def parsePacket (p : RtmpParse) : RtmpParse × Bool :=
  match p.buffer with
  | [] => (p, true)
  | first_byte :: _ =>
    let channel_id := RtmpPkthd.channelIdOf first_byte
    let pkthd_len := RtmpPkthd.pkthdLen first_byte
    if p.buffer.length < pkthd_len then (p, true) else
    let p := p.withChanctx channel_id
    let chanctx := p.chanctx channel_id
    match chanctx.last_pkthd.unserial (p.buffer.take pkthd_len) with
    | none => ({ p with status := .threw "Invalid null rtmp_pkthd_t" }, true)
    | some chunk_pkthd =>
      let holds := decide (chanctx.body_buffer.length ≤ chunk_pkthd.body_length)
      let p := { p with assert_failed := p.assert_failed || !holds }
      let chunk_len := chanctx.chunkLen chunk_pkthd
      if p.buffer.length < pkthd_len + chunk_len then (p, true) else
      let chunk_body := (p.buffer.drop pkthd_len).take chunk_len
      let p := { p with buffer := p.buffer.drop (pkthd_len + chunk_len) }
      (p.notifyChunk keep chanctx chunk_pkthd chunk_body, false)

/-- The loop of `parse_buffer`; `none` when the fuel is used up. -/
def parseLoop : ℕ → RtmpParse → Option RtmpParse
  | 0, _ => none
  | fuel + 1, p =>
    let (p, stop_parsing) := p.parsePacket keep
    if p.status ≠ .running ∨ stop_parsing then some p else parseLoop fuel p

/-- What `parse_buffer` does after its loop. -/
def checkMaxlen (p : RtmpParse) : RtmpParse :=
  if p.status = .running ∧ p.buffer_maxlen < p.buffer.length then
    notifyCallback keep { p with buffer := [] }
      (.error ("receiving buffer larger than " ++ toString p.buffer_maxlen))
  else p

/-- `parse_buffer`. -/
def parseBuffer (p : RtmpParse) : Option RtmpParse :=
  (p.parseLoop keep (p.buffer.length + 1)).map (checkMaxlen keep)

/-- `notify_data`. -/
def notifyData (p : RtmpParse) (new_data : Datum) : RtmpParse :=
  { p with buffer := p.buffer ++ new_data }

/-! ### The contexts -/

section Contexts

variable {p : RtmpParse} {channel_id : UInt8} {chanctx : RtmpChanctx}

theorem channel_id_of_find (h : p.chanctxByChannelId channel_id = some chanctx) :
    chanctx.channel_id = channel_id := by
  have := List.find?_some h
  exact (beq_iff_eq.1 this).symm

@[simp] theorem channel_id_chanctx (p : RtmpParse) (channel_id : UInt8) :
    (p.chanctx channel_id).channel_id = channel_id := by
  rw [RtmpParse.chanctx]
  cases h : p.chanctxByChannelId channel_id with
  | none => rfl
  | some chanctx => exact channel_id_of_find h

theorem isSome_withChanctx (p : RtmpParse) (channel_id : UInt8) :
    ((p.withChanctx channel_id).chanctxByChannelId channel_id).isSome := by
  rw [withChanctx]
  split_ifs with h
  · exact h
  · simp [chanctxByChannelId, RtmpChanctx.start]

/-- A new context is as if it had been there. -/
@[simp] theorem chanctx_withChanctx (p : RtmpParse) (channel_id other : UInt8) :
    (p.withChanctx channel_id).chanctx other = p.chanctx other := by
  rw [withChanctx]
  split_ifs with h
  · rfl
  · simp only [RtmpParse.chanctx, chanctxByChannelId, List.find?_append]
    cases hfind : p.chanctx_db.find? fun chanctx => other == chanctx.channel_id with
    | some chanctx => rfl
    | none =>
      by_cases hid : other = channel_id
      · simp [RtmpChanctx.start, hid]
      · simp [RtmpChanctx.start, hid]

theorem chanctx_setChanctx (h : (p.chanctxByChannelId chanctx.channel_id).isSome)
    (other : UInt8) : (p.setChanctx chanctx).chanctx other =
      if other = chanctx.channel_id then chanctx else p.chanctx other := by
  obtain ⟨old, hold⟩ := Option.isSome_iff_exists.1 h
  simp only [RtmpParse.chanctx, chanctxByChannelId, setChanctx, List.find?_map]
  by_cases hid : other = chanctx.channel_id
  · subst hid
    have hsame : (fun c : RtmpChanctx => chanctx.channel_id == c.channel_id)
        ∘ (fun c => if chanctx.channel_id == c.channel_id then chanctx else c)
        = fun c => chanctx.channel_id == c.channel_id := by
      funext c
      by_cases hc : chanctx.channel_id = c.channel_id <;> simp [hc]
    rw [hsame, if_pos rfl, show p.chanctx_db.find? _ = some old from hold]
    simp [channel_id_of_find hold]
  · have hsame : (fun c : RtmpChanctx => other == c.channel_id)
        ∘ (fun c => if chanctx.channel_id == c.channel_id then chanctx else c)
        = fun c => other == c.channel_id := by
      funext c
      by_cases hc : chanctx.channel_id = c.channel_id
      · rw [Function.comp_apply, if_pos (beq_iff_eq.2 hc), hc]
      · rw [Function.comp_apply, if_neg (by simpa using hc)]
    rw [hsame, if_neg hid]
    cases hfind : p.chanctx_db.find? fun c => other == c.channel_id with
    | none => rfl
    | some c =>
      have hc : other = c.channel_id := (channel_id_of_find hfind).symm
      have hne : chanctx.channel_id ≠ c.channel_id := fun he => hid (hc.trans he.symm)
      simp [hne]

theorem isSome_setChanctx (h : (p.chanctxByChannelId channel_id).isSome) :
    ((p.setChanctx chanctx).chanctxByChannelId channel_id).isSome := by
  simp only [chanctxByChannelId, setChanctx, List.find?_isSome, List.mem_map] at h ⊢
  obtain ⟨old, hold, hid⟩ := h
  refine ⟨_, ⟨old, hold, rfl⟩, ?_⟩
  by_cases hc : chanctx.channel_id = old.channel_id
  · simp only [beq_iff_eq] at hid ⊢
    simp [hc, hid]
  · simpa [hc] using hid

end Contexts

/-! ### What a chunk does -/

section Chunk

variable {keep} {p : RtmpParse} {chanctx : RtmpChanctx} {chunk_pkthd : RtmpPkthd}
  {chunk_body : Datum} {first_byte : UInt8} {rest : Datum}

/-- A chunk after which the body is not whole. -/
theorem notifyChunk_part
    (h : (chanctx.body_buffer ++ chunk_body).length < chunk_pkthd.body_length) :
    p.notifyChunk keep chanctx chunk_pkthd chunk_body = p.setChanctx { chanctx with
      last_pkthd := chunk_pkthd, body_buffer := chanctx.body_buffer ++ chunk_body } := by
  rw [notifyChunk]
  exact (if_neg (by simpa using Nat.le_of_lt h)).trans (if_pos h)

/-- The chunk which makes the body whole. -/
theorem notifyChunk_whole
    (h : (chanctx.body_buffer ++ chunk_body).length = chunk_pkthd.body_length) :
    p.notifyChunk keep chanctx chunk_pkthd chunk_body =
      let chanctx' := { chanctx with
        last_pkthd := chunk_pkthd, body_buffer := chanctx.body_buffer ++ chunk_body }
      let p' := (p.setChanctx chanctx').notifyCallback keep
        (.packet chunk_pkthd chanctx'.body_buffer)
      if p'.status = .deleted then p' else p'.setChanctx { chanctx' with body_buffer := [] } := by
  rw [notifyChunk]
  exact (if_neg (by simp [h])).trans (if_neg (by simp [h]))

@[simp] theorem buffer_notifyChunk :
    (p.notifyChunk keep chanctx chunk_pkthd chunk_body).buffer = p.buffer := by
  rw [notifyChunk]
  dsimp only
  split_ifs <;> rfl

@[simp] theorem assert_failed_notifyChunk :
    (p.notifyChunk keep chanctx chunk_pkthd chunk_body).assert_failed = p.assert_failed := by
  rw [notifyChunk]
  dsimp only
  split_ifs <;> rfl

theorem status_notifyChunk (keep) (p : RtmpParse) (chanctx : RtmpChanctx)
    (chunk_pkthd : RtmpPkthd) (chunk_body : Datum) :
    (p.notifyChunk keep chanctx chunk_pkthd chunk_body).status = p.status
      ∨ (p.notifyChunk keep chanctx chunk_pkthd chunk_body).status = .deleted := by
  have hcallback (q : RtmpParse) (event : RtmpEvent) : (q.notifyCallback keep event).status
      = q.status ∨ (q.notifyCallback keep event).status = .deleted := by
    rw [notifyCallback]
    dsimp only
    split_ifs
    · exact .inl rfl
    · exact .inr rfl
  rw [notifyChunk]
  dsimp only
  split_ifs with h₁ h₂ h₃
  · exact hcallback _ _
  · exact .inl rfl
  · exact hcallback _ _
  · exact hcallback _ _

/-! ### What `parse_packet` does -/

theorem parsePacket_nil (h : p.buffer = []) : p.parsePacket keep = (p, true) := by
  simp [parsePacket, h]

theorem parsePacket_short (h : p.buffer = first_byte :: rest)
    (hlen : p.buffer.length < RtmpPkthd.pkthdLen first_byte) :
    p.parsePacket keep = (p, true) := by
  rw [parsePacket, h]
  exact if_pos (by rwa [← h])

/-- The header at the front of the buffer, completed with the last one on its channel. -/
def header (p : RtmpParse) (first_byte : UInt8) : Option RtmpPkthd :=
  (p.chanctx (RtmpPkthd.channelIdOf first_byte)).last_pkthd.unserial
    (p.buffer.take (RtmpPkthd.pkthdLen first_byte))

/-- The length of the header and of its chunk. -/
def wholeLen (p : RtmpParse) (first_byte : UInt8) (chunk_pkthd : RtmpPkthd) : ℕ :=
  RtmpPkthd.pkthdLen first_byte
    + (p.chanctx (RtmpPkthd.channelIdOf first_byte)).chunkLen chunk_pkthd

/-- The assertion on the two lengths has been looked at. -/
def checked (p : RtmpParse) (first_byte : UInt8) (chunk_pkthd : RtmpPkthd) : RtmpParse :=
  let channel_id := RtmpPkthd.channelIdOf first_byte
  let holds := decide ((p.chanctx channel_id).body_buffer.length ≤ chunk_pkthd.body_length)
  { p.withChanctx channel_id with assert_failed := p.assert_failed || !holds }

@[simp] theorem buffer_withChanctx (channel_id : UInt8) :
    (p.withChanctx channel_id).buffer = p.buffer := by
  rw [withChanctx]
  split_ifs <;> rfl

@[simp] theorem assert_failed_withChanctx (channel_id : UInt8) :
    (p.withChanctx channel_id).assert_failed = p.assert_failed := by
  rw [withChanctx]
  split_ifs <;> rfl

@[simp] theorem status_withChanctx (channel_id : UInt8) :
    (p.withChanctx channel_id).status = p.status := by
  rw [withChanctx]
  split_ifs <;> rfl

@[simp] theorem events_withChanctx (channel_id : UInt8) :
    (p.withChanctx channel_id).events = p.events := by
  rw [withChanctx]
  split_ifs <;> rfl

theorem parsePacket_throw (h : p.buffer = first_byte :: rest)
    (hlen : RtmpPkthd.pkthdLen first_byte ≤ p.buffer.length) (hhd : p.header first_byte = none) :
    p.parsePacket keep = ({ p.withChanctx (RtmpPkthd.channelIdOf first_byte) with
      status := .threw "Invalid null rtmp_pkthd_t" }, true) := by
  rw [parsePacket, h]
  dsimp only
  rw [if_neg (by rw [← h]; omega), chanctx_withChanctx, buffer_withChanctx,
    show RtmpPkthd.unserial _ _ = none from hhd]

theorem parsePacket_wait (h : p.buffer = first_byte :: rest)
    (hlen : RtmpPkthd.pkthdLen first_byte ≤ p.buffer.length)
    (hhd : p.header first_byte = some chunk_pkthd)
    (hwait : p.buffer.length < p.wholeLen first_byte chunk_pkthd) :
    p.parsePacket keep = (p.checked first_byte chunk_pkthd, true) := by
  rw [parsePacket, h]
  dsimp only
  rw [if_neg (by rw [← h]; omega), chanctx_withChanctx, buffer_withChanctx,
    show RtmpPkthd.unserial _ _ = some chunk_pkthd from hhd]
  dsimp only
  rw [← wholeLen, if_pos hwait, assert_failed_withChanctx]
  simp only [checked, buffer_withChanctx]

/-- The header and its chunk have been taken off the buffer. -/
def taken (p : RtmpParse) (first_byte : UInt8) (chunk_pkthd : RtmpPkthd) : RtmpParse :=
  { p.checked first_byte chunk_pkthd with
    buffer := p.buffer.drop (p.wholeLen first_byte chunk_pkthd) }

/-- The body of the chunk. -/
def chunkBody (p : RtmpParse) (first_byte : UInt8) (chunk_pkthd : RtmpPkthd) : Datum :=
  (p.buffer.drop (RtmpPkthd.pkthdLen first_byte)).take
    ((p.chanctx (RtmpPkthd.channelIdOf first_byte)).chunkLen chunk_pkthd)

theorem chanctx_congr {q : RtmpParse} (h : q.chanctx_db = p.chanctx_db) (channel_id : UInt8) :
    q.chanctx channel_id = p.chanctx channel_id := by
  simp only [RtmpParse.chanctx, chanctxByChannelId, h]

theorem chanctx_db_checked : (p.checked first_byte chunk_pkthd).chanctx_db
    = (p.withChanctx (RtmpPkthd.channelIdOf first_byte)).chanctx_db := by
  rw [checked]

theorem chanctx_db_taken : (p.taken first_byte chunk_pkthd).chanctx_db
    = (p.withChanctx (RtmpPkthd.channelIdOf first_byte)).chanctx_db := by
  rw [taken, chanctx_db_checked]

@[simp] theorem chanctx_checked (channel_id : UInt8) :
    (p.checked first_byte chunk_pkthd).chanctx channel_id = p.chanctx channel_id := by
  rw [chanctx_congr chanctx_db_checked, chanctx_withChanctx]

@[simp] theorem chanctx_taken (channel_id : UInt8) :
    (p.taken first_byte chunk_pkthd).chanctx channel_id = p.chanctx channel_id := by
  rw [chanctx_congr chanctx_db_taken, chanctx_withChanctx]

@[simp] theorem status_checked : (p.checked first_byte chunk_pkthd).status = p.status := by
  simp only [checked, status_withChanctx]

@[simp] theorem status_taken : (p.taken first_byte chunk_pkthd).status = p.status := by
  simp only [taken, status_checked]

@[simp] theorem events_checked : (p.checked first_byte chunk_pkthd).events = p.events := by
  simp only [checked, events_withChanctx]

@[simp] theorem events_taken : (p.taken first_byte chunk_pkthd).events = p.events := by
  simp only [taken, events_checked]

theorem isSome_taken : ((p.taken first_byte chunk_pkthd).chanctxByChannelId
    (p.chanctx (RtmpPkthd.channelIdOf first_byte)).channel_id).isSome := by
  rw [channel_id_chanctx, chanctxByChannelId, chanctx_db_taken]
  exact isSome_withChanctx p _

theorem length_chunkBody (hchunk : p.wholeLen first_byte chunk_pkthd ≤ p.buffer.length) :
    (p.chunkBody first_byte chunk_pkthd).length
      = (p.chanctx (RtmpPkthd.channelIdOf first_byte)).chunkLen chunk_pkthd := by
  rw [wholeLen] at hchunk
  rw [chunkBody, List.length_take, List.length_drop]
  omega

theorem parsePacket_chunk (h : p.buffer = first_byte :: rest)
    (hlen : RtmpPkthd.pkthdLen first_byte ≤ p.buffer.length)
    (hhd : p.header first_byte = some chunk_pkthd)
    (hchunk : p.wholeLen first_byte chunk_pkthd ≤ p.buffer.length) :
    p.parsePacket keep = ((p.taken first_byte chunk_pkthd).notifyChunk keep
      (p.chanctx (RtmpPkthd.channelIdOf first_byte)) chunk_pkthd
      (p.chunkBody first_byte chunk_pkthd), false) := by
  rw [parsePacket, h]
  dsimp only
  rw [if_neg (by rw [← h]; omega), chanctx_withChanctx, buffer_withChanctx,
    show RtmpPkthd.unserial _ _ = some chunk_pkthd from hhd]
  dsimp only
  rw [← wholeLen, if_neg (Nat.not_lt.2 hchunk), assert_failed_withChanctx]
  simp only [taken, checked, chunkBody]

/-- The assertion is looked at whether or not the whole chunk is there. -/
theorem assert_failed_parsePacket (h : p.buffer = first_byte :: rest)
    (hlen : RtmpPkthd.pkthdLen first_byte ≤ p.buffer.length)
    (hhd : p.header first_byte = some chunk_pkthd) :
    (p.parsePacket keep).1.assert_failed = (p.assert_failed || !decide
      ((p.chanctx (RtmpPkthd.channelIdOf first_byte)).body_buffer.length
        ≤ chunk_pkthd.body_length)) := by
  rcases Nat.lt_or_ge p.buffer.length (p.wholeLen first_byte chunk_pkthd) with hwait | hchunk
  · rw [parsePacket_wait h hlen hhd hwait, checked]
  · rw [parsePacket_chunk h hlen hhd hchunk, assert_failed_notifyChunk, taken, checked]

end Chunk

/-! ### Parsing comes to an end -/

section Ends

variable {keep} {p p' : RtmpParse} {first_byte : UInt8} {rest : Datum}

/-- There is nothing in the buffer, or a part of a header, or a header. -/
theorem parsePacket_front (p : RtmpParse) : p.buffer = [] ∨ ∃ first_byte rest,
    p.buffer = first_byte :: rest ∧ (p.buffer.length < RtmpPkthd.pkthdLen first_byte
      ∨ RtmpPkthd.pkthdLen first_byte ≤ p.buffer.length) := by
  cases h : p.buffer with
  | nil => exact .inl rfl
  | cons first_byte rest => exact .inr ⟨first_byte, rest, rfl, Nat.lt_or_ge _ _⟩

/-- What a `parse_packet` which goes on takes off the buffer is at least a header. -/
theorem length_buffer_parsePacket (h : p.parsePacket keep = (p', false)) :
    p'.buffer.length < p.buffer.length := by
  rcases parsePacket_front p with hnil | ⟨first_byte, rest, hcons, hlt | hlen⟩
  · simp [parsePacket_nil hnil] at h
  · simp [parsePacket_short hcons hlt] at h
  · cases hhd : p.header first_byte with
    | none => simp [parsePacket_throw hcons hlen hhd] at h
    | some chunk_pkthd =>
      by_cases hchunk : p.wholeLen first_byte chunk_pkthd ≤ p.buffer.length
      · rw [parsePacket_chunk hcons hlen hhd hchunk] at h
        have hpos := RtmpPkthd.pkthdLen_pos first_byte
        rw [← (Prod.mk.inj h).1, buffer_notifyChunk, taken, List.length_drop]
        rw [wholeLen] at hchunk ⊢
        omega
      · rw [parsePacket_wait hcons hlen hhd (Nat.not_le.1 hchunk)] at h
        simp at h

theorem parseLoop_isSome (keep) {fuel : ℕ} (h : p.buffer.length < fuel) :
    (p.parseLoop keep fuel).isSome := by
  induction fuel generalizing p with
  | zero => exact absurd h (Nat.not_lt_zero _)
  | succ fuel ih =>
    rw [parseLoop]
    dsimp only
    split_ifs with hstop
    · rfl
    · have hpair : p.parsePacket keep = ((p.parsePacket keep).1, false) := by
        rw [not_or, Bool.not_eq_true] at hstop
        rw [← hstop.2]
      have hlt := length_buffer_parsePacket hpair
      exact ih (by omega)

/-- **A parse which stops has nothing left to do**: it would do nothing if it was called
again. -/
theorem parsePacket_of_stop (h : p.parsePacket keep = (p', true)) (hrun : p'.status = .running) :
    p'.parsePacket keep = (p', true) := by
  rcases parsePacket_front p with hnil | ⟨first_byte, rest, hcons, hlt | hlen⟩
  · rw [parsePacket_nil hnil] at h
    obtain rfl := (Prod.mk.inj h).1
    exact parsePacket_nil hnil
  · rw [parsePacket_short hcons hlt] at h
    obtain rfl := (Prod.mk.inj h).1
    exact parsePacket_short hcons hlt
  · cases hhd : p.header first_byte with
    | none =>
      rw [parsePacket_throw hcons hlen hhd] at h
      rw [← (Prod.mk.inj h).1] at hrun
      simp at hrun
    | some chunk_pkthd =>
      by_cases hchunk : p.wholeLen first_byte chunk_pkthd ≤ p.buffer.length
      · rw [parsePacket_chunk hcons hlen hhd hchunk] at h
        simp at h
      · rw [parsePacket_wait hcons hlen hhd (Nat.not_le.1 hchunk)] at h
        obtain rfl := (Prod.mk.inj h).1
        have hbuffer : (p.checked first_byte chunk_pkthd).buffer = p.buffer :=
          buffer_withChanctx _
        have hagain : (p.checked first_byte chunk_pkthd).header first_byte = some chunk_pkthd := by
          rw [header, hbuffer, chanctx_checked]
          exact hhd
        rw [parsePacket_wait (hbuffer.trans hcons) (by rwa [hbuffer]) hagain
          (by rw [hbuffer, wholeLen, chanctx_checked]; exact Nat.not_le.1 hchunk)]
        have hsome : ((p.checked first_byte chunk_pkthd).chanctxByChannelId
            (RtmpPkthd.channelIdOf first_byte)).isSome := isSome_withChanctx p _
        rw [checked, withChanctx, if_pos hsome, chanctx_checked]
        simp [checked]

theorem parseLoop_spec {fuel : ℕ} (h : p.parseLoop keep fuel = some p')
    (hrun : p'.status = .running) : p'.parsePacket keep = (p', true) := by
  induction fuel generalizing p with
  | zero => simp [parseLoop] at h
  | succ fuel ih =>
    rw [parseLoop] at h
    dsimp only at h
    split_ifs at h with hstop
    · obtain rfl := Option.some.inj h
      have hstop : (p.parsePacket keep).2 = true := hstop.resolve_left (not_not.2 hrun)
      exact parsePacket_of_stop (Prod.ext rfl hstop) hrun
    · exact ih h

/-- **`parse_buffer` returns**, and then there is nothing left for it to do. -/
theorem parseBuffer_isSome (keep) (p : RtmpParse) : ∃ p', p.parseBuffer keep = some p' ∧
    (p'.status = .running → p'.parsePacket keep = (p', true)) := by
  obtain ⟨q, hq⟩ := Option.isSome_iff_exists.1
    (parseLoop_isSome keep (Nat.lt_succ_self p.buffer.length))
  refine ⟨q.checkMaxlen keep, by rw [parseBuffer, hq]; rfl, fun hrun => ?_⟩
  rw [checkMaxlen] at hrun ⊢
  split_ifs at hrun ⊢ with hlarge
  · exact parsePacket_nil rfl
  · exact parseLoop_spec hq hrun

end Ends

/-! ### The lengths of a body -/

section Lengths

variable {keep} {p : RtmpParse} {chanctx : RtmpChanctx} {chunk_pkthd : RtmpPkthd}
  {chunk_body : Datum} {first_byte : UInt8} {rest : Datum}

/-- No body is longer than the last header on its channel says. -/
def Bounded (p : RtmpParse) : Prop := ∀ channel_id,
  (p.chanctx channel_id).body_buffer.length ≤ (p.chanctx channel_id).last_pkthd.body_length

theorem Bounded.setChanctx (h : p.Bounded)
    (hsome : (p.chanctxByChannelId chanctx.channel_id).isSome)
    (hle : chanctx.body_buffer.length ≤ chanctx.last_pkthd.body_length) :
    (p.setChanctx chanctx).Bounded := fun channel_id => by
  rw [chanctx_setChanctx hsome]
  split_ifs
  · exact hle
  · exact h channel_id

theorem Bounded.notifyCallback (h : p.Bounded) (event : RtmpEvent) :
    (p.notifyCallback keep event).Bounded := h

theorem Bounded.notifyChunk (h : p.Bounded)
    (hsome : (p.chanctxByChannelId chanctx.channel_id).isSome)
    (hle : (chanctx.body_buffer ++ chunk_body).length ≤ chunk_pkthd.body_length) :
    (p.notifyChunk keep chanctx chunk_pkthd chunk_body).Bounded := by
  have hset : (p.setChanctx { chanctx with
      last_pkthd := chunk_pkthd, body_buffer := chanctx.body_buffer ++ chunk_body }).Bounded :=
    h.setChanctx hsome hle
  rcases Nat.lt_or_eq_of_le hle with hlt | heq
  · rw [notifyChunk_part hlt]
    exact hset
  · rw [notifyChunk_whole heq]
    dsimp only
    split_ifs
    · exact hset.notifyCallback _
    · exact (hset.notifyCallback _).setChanctx (isSome_setChanctx hsome) (Nat.zero_le _)

/-- Where the length is enough there is no wrapping around. -/
theorem chunkLen_le (hle : chanctx.body_buffer.length ≤ chunk_pkthd.body_length) :
    chanctx.body_buffer.length + chanctx.chunkLen chunk_pkthd ≤ chunk_pkthd.body_length := by
  have hmin : chanctx.chunkLen chunk_pkthd
      ≤ sizeSub chunk_pkthd.body_length chanctx.body_buffer.length := Nat.min_le_left _ _
  rw [sizeSub, if_pos hle] at hmin
  omega

/-! ### Sound parsing -/

/-- What a header at the front of the buffer needs: one without a type comes on a channel
which has one, and one with a length announces no less than what is there of the body. -/
def HeaderOk (p : RtmpParse) : Prop := ∀ first_byte rest, p.buffer = first_byte :: rest →
  RtmpPkthd.pkthdLen first_byte ≤ p.buffer.length →
    let chanctx := p.chanctx (RtmpPkthd.channelIdOf first_byte)
    if RtmpPkthd.pkthdLen first_byte < 8 then chanctx.last_pkthd.isNull = false
    else chanctx.body_buffer.length ≤ RtmpPkthd.announcedLength p.buffer

/-- The header at the front of the buffer takes its length, and its type, from itself or from
the last one. -/
theorem header_spec (hcons : p.buffer = first_byte :: rest)
    (hlen : RtmpPkthd.pkthdLen first_byte ≤ p.buffer.length) :
    ∃ hd, p.header first_byte = (some hd).filter (fun pkthd => !pkthd.isNull)
      ∧ (RtmpPkthd.pkthdLen first_byte < 8 →
          hd.isNull = (p.chanctx (RtmpPkthd.channelIdOf first_byte)).last_pkthd.isNull
          ∧ hd.body_length
            = (p.chanctx (RtmpPkthd.channelIdOf first_byte)).last_pkthd.body_length)
      ∧ (8 ≤ RtmpPkthd.pkthdLen first_byte →
          hd.isNull = false ∧ hd.body_length = RtmpPkthd.announcedLength p.buffer) := by
  obtain ⟨m, hm⟩ : ∃ m, RtmpPkthd.pkthdLen first_byte = m + 1 :=
    ⟨_, (Nat.sub_add_cancel (RtmpPkthd.pkthdLen_pos first_byte)).symm⟩
  have htake : p.buffer.take (RtmpPkthd.pkthdLen first_byte) = first_byte :: rest.take m := by
    rw [hcons, hm, List.take_succ_cons]
  have htakelen : RtmpPkthd.pkthdLen first_byte ≤ (first_byte :: rest.take m).length := by
    rw [← htake, List.length_take]
    exact Nat.le_min.2 ⟨Nat.le_refl _, hlen⟩
  obtain ⟨hd, hover, -, hshort, hlong⟩ := RtmpPkthd.overlay_spec
    (p.chanctx (RtmpPkthd.channelIdOf first_byte)).last_pkthd htakelen
  refine ⟨hd, ?_, fun h8 => ⟨?_, (hshort h8).2⟩, fun h8 => ⟨?_, ?_⟩⟩
  · rw [header, htake, RtmpPkthd.unserial, hover]
  · rw [RtmpPkthd.isNull, (hshort h8).1, RtmpPkthd.isNull]
  · rw [RtmpPkthd.isNull, Option.isNone_eq_false_iff]
    exact (hlong h8).1
  · rw [(hlong h8).2, ← htake, RtmpPkthd.announcedLength_take (by omega)]

/-- The header is there, and the assertion holds of it. -/
theorem headerOk_iff (h : p.Bounded) (hcons : p.buffer = first_byte :: rest)
    (hlen : RtmpPkthd.pkthdLen first_byte ≤ p.buffer.length) :
    p.HeaderOk ↔ ∃ hd, p.header first_byte = some hd ∧
      (p.chanctx (RtmpPkthd.channelIdOf first_byte)).body_buffer.length ≤ hd.body_length := by
  obtain ⟨hd, hheader, hshort, hlong⟩ := header_spec hcons hlen
  have hok : p.HeaderOk ↔
      if RtmpPkthd.pkthdLen first_byte < 8
      then (p.chanctx (RtmpPkthd.channelIdOf first_byte)).last_pkthd.isNull = false
      else (p.chanctx (RtmpPkthd.channelIdOf first_byte)).body_buffer.length
        ≤ RtmpPkthd.announcedLength p.buffer := by
    constructor
    · intro hp
      exact hp first_byte rest hcons hlen
    · intro hp other rest' hother _
      obtain ⟨rfl, -⟩ := List.cons.inj (hcons.symm.trans hother)
      exact hp
  rw [hok]
  by_cases h8 : RtmpPkthd.pkthdLen first_byte < 8
  · obtain ⟨hnull, hlength⟩ := hshort h8
    rw [if_pos h8, ← hnull]
    constructor
    · intro hp
      refine ⟨hd, by simp [hheader, hp], ?_⟩
      rw [hlength]
      exact h _
    · rintro ⟨hd', hhd', -⟩
      obtain ⟨rfl, hnull'⟩ : hd = hd' ∧ hd'.isNull = false := by simpa [hheader] using hhd'
      exact hnull'
  · obtain ⟨hnull, hlength⟩ := hlong (Nat.not_lt.1 h8)
    rw [if_neg h8, ← hlength]
    simp [hheader, hnull]

end Lengths

/-! ### Runs -/

/-- What happens to a parser: bytes come, and when its timer expires `parse_buffer` is called,
which calls `parse_packet` until there is nothing left to parse and then looks at the size of
the buffer. -/
inductive Ev
  | data (new_data : Datum)
  | packet
  | checkMaxlen

def step (p : RtmpParse) (ev : Ev) : RtmpParse :=
  if p.status = .running then
    match ev with
    | .data new_data => p.notifyData new_data
    | .packet => (p.parsePacket keep).1
    | .checkMaxlen => p.checkMaxlen keep
  else p

/-- `parse_buffer` is a run of its steps. -/
theorem parseBuffer_eq_run {p p' : RtmpParse} (hrun : p.status = .running)
    (h : p.parseBuffer keep = some p') :
    ∃ n, p' = Neoip.run (step keep) p (List.replicate n .packet ++ [.checkMaxlen]) := by
  obtain ⟨q, hq, rfl⟩ := Option.map_eq_some_iff.1 h
  have hloop : ∀ fuel p, p.status = .running → p.parseLoop keep fuel = some q →
      ∃ n, q = Neoip.run (step keep) p (List.replicate n .packet) := by
    intro fuel
    induction fuel with
    | zero => intro p _ h; simp [parseLoop] at h
    | succ fuel ih =>
      intro p hrun h
      have hstep : step keep p .packet = (p.parsePacket keep).1 := if_pos hrun
      rw [parseLoop] at h
      dsimp only at h
      split_ifs at h with hstop
      · refine ⟨1, ?_⟩
        obtain rfl := Option.some.inj h
        exact hstep.symm
      · obtain ⟨n, hn⟩ := ih _ (not_not.1 fun hne => hstop (.inl hne)) h
        refine ⟨n + 1, ?_⟩
        rw [List.replicate_succ, run_cons, hstep]
        exact hn
  obtain ⟨n, hn⟩ := hloop _ p hrun hq
  refine ⟨n, ?_⟩
  rw [run_append, ← hn, run_cons, run_nil, step]
  split_ifs with hs
  · rfl
  · rw [checkMaxlen, if_neg fun hc => hs hc.1]

/-- What parsing shall be: no exception, no difference of lengths which wraps around, no body
which is longer than announced; and `parse_buffer` returns, in a state in which there is
nothing left which could be delivered. -/
structure Sound (p : RtmpParse) : Prop where
  no_throw : ∀ what, p.status ≠ .threw what
  no_assert : p.assert_failed = false
  bounded : p.Bounded
  returns : p.status = .running → ∃ p' n, p.parseBuffer keep = some p'
    ∧ p' = Neoip.run (step keep) p (List.replicate n .packet ++ [.checkMaxlen])
    ∧ (p'.status = .running → p'.parsePacket keep = (p', true))

section Sound

variable {keep} {p : RtmpParse}

theorem sound_of (hthrow : ∀ what, p.status ≠ .threw what) (hassert : p.assert_failed = false)
    (hbounded : p.Bounded) : Sound keep p :=
  ⟨hthrow, hassert, hbounded, fun hrun => by
    obtain ⟨p', hp', hsettled⟩ := parseBuffer_isSome keep p
    obtain ⟨n, hn⟩ := parseBuffer_eq_run keep hrun hp'
    exact ⟨p', n, hp', hn, hsettled⟩⟩

theorem Sound.start (buffer_maxlen : ℕ) : Sound keep (start buffer_maxlen) :=
  sound_of (by simp [RtmpParse.start]) rfl fun channel_id => Nat.le_refl 0

theorem Sound.data (h : Sound keep p) (new_data : Datum) : Sound keep (p.notifyData new_data) :=
  sound_of h.no_throw h.no_assert h.bounded

theorem Sound.checkMaxlen (h : Sound keep p) : Sound keep (p.checkMaxlen keep) := by
  rw [RtmpParse.checkMaxlen]
  split_ifs
  · refine sound_of (fun what => ?_) h.no_assert h.bounded
    show (if keep _ then p.status else .deleted) ≠ _
    split_ifs
    · exact h.no_throw what
    · exact nofun
  · exact h

/-- A chunk with a header as it should be. -/
theorem Sound.chunk (h : Sound keep p) {first_byte : UInt8} {rest : Datum} {hd : RtmpPkthd}
    (hcons : p.buffer = first_byte :: rest)
    (hlen : RtmpPkthd.pkthdLen first_byte ≤ p.buffer.length)
    (hhd : p.header first_byte = some hd)
    (hle : (p.chanctx (RtmpPkthd.channelIdOf first_byte)).body_buffer.length ≤ hd.body_length) :
    Sound keep (p.parsePacket keep).1 := by
  have hassert : (p.checked first_byte hd).assert_failed = false := by
    simp [checked, h.no_assert, hle]
  rcases Nat.lt_or_ge p.buffer.length (p.wholeLen first_byte hd) with hwait | hchunk
  · rw [parsePacket_wait hcons hlen hhd hwait]
    apply sound_of _ hassert
    · intro channel_id
      rw [chanctx_checked]
      exact h.bounded channel_id
    · simpa using h.no_throw
  · rw [parsePacket_chunk hcons hlen hhd hchunk]
    apply sound_of
    · intro what
      rcases status_notifyChunk keep (p.taken first_byte hd)
        (p.chanctx (RtmpPkthd.channelIdOf first_byte)) hd (p.chunkBody first_byte hd) with hsame | hdel
      · rw [hsame, status_taken]
        exact h.no_throw what
      · rw [hdel]
        exact nofun
    · rw [assert_failed_notifyChunk]
      exact hassert
    · have hbounded : (p.taken first_byte hd).Bounded := fun channel_id => by
        rw [chanctx_taken]
        exact h.bounded channel_id
      apply hbounded.notifyChunk isSome_taken
      rw [List.length_append, length_chunkBody hchunk]
      exact chunkLen_le hle

/-- One `parse_packet` is sound exactly when the header is as it should be. -/
theorem sound_packet_iff (h : Sound keep p) :
    Sound keep (p.parsePacket keep).1 ↔ p.HeaderOk := by
  rcases parsePacket_front p with hnil | ⟨first_byte, rest, hcons, hlt | hlen⟩
  · rw [parsePacket_nil hnil]
    exact iff_of_true h fun _ _ hcons => by simp [hnil] at hcons
  · rw [parsePacket_short hcons hlt]
    refine iff_of_true h fun other rest' hother hlen => ?_
    obtain ⟨rfl, -⟩ := List.cons.inj (hcons.symm.trans hother)
    exact absurd hlen (Nat.not_le.2 hlt)
  · rw [headerOk_iff h.bounded hcons hlen]
    cases hhd : p.header first_byte with
    | none =>
      rw [parsePacket_throw hcons hlen hhd]
      exact iff_of_false (fun hs => hs.no_throw _ rfl) (by simp)
    | some hd =>
      constructor
      · intro hs
        refine ⟨hd, rfl, ?_⟩
        have hassert := hs.no_assert
        rw [assert_failed_parsePacket hcons hlen hhd, Bool.or_eq_false_iff] at hassert
        simpa using hassert.2
      · rintro ⟨hd', hhd', hle⟩
        obtain rfl := Option.some.inj hhd'
        exact h.chunk hcons hlen hhd hle

end Sound

/-- **A hostile peer**: over any bytes, however they are cut and whenever they are parsed,
parsing is sound exactly when every header which is met is as it should be. -/
theorem always_sound_iff (buffer_maxlen : ℕ) (evs : List Ev) :
    Always (step keep) (Sound keep) (start buffer_maxlen) evs
      ↔ Guarded (step keep) (fun p ev => ev = .packet → p.status = .running → p.HeaderOk)
          (start buffer_maxlen) evs := by
  apply always_iff_guarded (Q := fun _ => True) (fun _ _ _ _ => trivial) _ (Sound.start _) trivial
  intro p ev _ h
  by_cases hrun : p.status = .running
  · cases ev with
    | data new_data =>
      rw [step, if_pos hrun]
      exact iff_of_true (h.data new_data) nofun
    | checkMaxlen =>
      rw [step, if_pos hrun]
      exact iff_of_true h.checkMaxlen nofun
    | packet =>
      rw [step, if_pos hrun, sound_packet_iff h]
      exact ⟨fun hok _ _ => hok, fun hok => hok rfl hrun⟩
  · have hsame : step keep p ev = p := if_neg hrun
    rw [hsame]
    exact iff_of_true h fun _ hrun' => absurd hrun' hrun

/-- Two headers on a channel: of a packet of 200 bytes, and, when 128 of them have come, of one
of 100. -/
def shrinking : Datum :=
  RtmpPkthd.serialize ⟨3, 0, 200, some 0x14, 0⟩ ++ List.replicate 128 0
    ++ RtmpPkthd.serialize ⟨3, 0, 100, some 0x14, 0⟩

/-- A compressed header which is the first one on its channel, and a header in the middle of a
packet which announces less than what has come. -/
theorem not_always_sound :
    ¬ Always (step fun _ => true) (Sound fun _ => true) (start bufferMaxlen)
        [.data [0xC3], .packet]
    ∧ ¬ Always (step fun _ => true) (Sound fun _ => true) (start bufferMaxlen)
        [.data shrinking, .packet, .packet] := by
  constructor
  · apply not_always_of_run
    intro h
    exact h.no_throw "Invalid null rtmp_pkthd_t" (by decide +kernel)
  · apply not_always_of_run
    intro h
    exact absurd h.no_assert (by decide +kernel)

end RtmpParse

end Neoip
