/-
Neoip/RtmpRound.lean

What `rtmp_build_t` writes, `rtmp_parse_t` reads.

The parser is first looked at as a decoder whose state is a header and a body
for each channel, and what was delivered (`View`): `next` is what a
`parse_packet` finds at the front of the buffer (`parsePacket_view`).  By the
theory of such decoders it does not matter how a stream is cut, as long as the
whole of it is parsed without a failure; what is left in the buffer is then
less than a header and a chunk, so that the limit of the buffer is never met.

A packet is then followed through the decoder: its header and its first chunk,
and then one chunk after the other (`drain_bodyChunks`), which leaves the
channel as if it were new.

Main result: `delivers_iff`, that the packets are delivered, and no others,
exactly when each of their channels fits in the six bits it has in a header,
and each has a type.
-/
import Neoip.RtmpParse
import Neoip.Incremental
import Mathlib.Logic.Function.Basic

namespace Neoip

namespace RtmpParse

/-! ### The parser as a decoder -/

/-- For each channel its last header and the body in progress, and what was notified. -/
structure View where
  chans : UInt8 → RtmpPkthd × Datum
  events : List RtmpEvent

def view (p : RtmpParse) : View where
  chans := fun channel_id =>
    ((p.chanctx channel_id).last_pkthd, (p.chanctx channel_id).body_buffer)
  events := p.events

namespace View

/-- A chunk has come which is followed by others. -/
def part (v : View) (channel_id : UInt8) (hd : RtmpPkthd) (body : Datum) : View :=
  { v with chans := Function.update v.chans channel_id (hd, body) }

/-- A packet has been delivered. -/
def deliver (v : View) (channel_id : UInt8) (hd : RtmpPkthd) (body : Datum) : View where
  chans := Function.update v.chans channel_id (hd, [])
  events := v.events ++ [.packet hd body]

def chunk (v : View) (channel_id : UInt8) (hd : RtmpPkthd) (body : Datum) : View :=
  if body.length < hd.body_length then v.part channel_id hd body
  else v.deliver channel_id hd body

/-- How much of the body the next chunk has. -/
def chunkLen (hd : RtmpPkthd) (body : Datum) : ℕ :=
  min (hd.body_length - body.length) RtmpPkthd.chunkMaxlen

/-- What a `parse_packet` finds, where the header and the assertion leave it something to
find. -/
def next (v : View) : Datum → Verdict View Unit
  | [] => .wait
  | first_byte :: rest =>
    let buffer := first_byte :: rest
    let pkthd_len := RtmpPkthd.pkthdLen first_byte
    if buffer.length < pkthd_len then .wait else
    let channel_id := RtmpPkthd.channelIdOf first_byte
    let (last_pkthd, body) := v.chans channel_id
    match last_pkthd.unserial (buffer.take pkthd_len) with
    | none => .fault ()
    | some hd =>
      if hd.body_length < body.length then .fault () else
      let len := pkthd_len + chunkLen hd body
      if buffer.length < len then .wait
      else .item (v.chunk channel_id hd
        (body ++ (buffer.drop pkthd_len).take (chunkLen hd body))) len

section Next

variable {v v' : View} {first_byte : UInt8} {rest buffer tail : Datum} {hd : RtmpPkthd} {n : ℕ}

theorem next_short (h : (first_byte :: rest).length < RtmpPkthd.pkthdLen first_byte) :
    v.next (first_byte :: rest) = .wait := if_pos h

/-- The header is whole; what is found depends on the header. -/
theorem next_header (h : RtmpPkthd.pkthdLen first_byte ≤ (first_byte :: rest).length) :
    v.next (first_byte :: rest) =
      match (v.chans (RtmpPkthd.channelIdOf first_byte)).1.unserial
        ((first_byte :: rest).take (RtmpPkthd.pkthdLen first_byte)) with
      | none => .fault ()
      | some hd =>
        let body := (v.chans (RtmpPkthd.channelIdOf first_byte)).2
        if hd.body_length < body.length then .fault () else
        let len := RtmpPkthd.pkthdLen first_byte + chunkLen hd body
        if (first_byte :: rest).length < len then .wait
        else .item (v.chunk (RtmpPkthd.channelIdOf first_byte) hd
          (body ++ ((first_byte :: rest).drop (RtmpPkthd.pkthdLen first_byte)).take
            (chunkLen hd body))) len :=
  if_neg (Nat.not_lt.2 h)

/-- More bytes after a header which is there change nothing of it. -/
theorem next_append (h : RtmpPkthd.pkthdLen first_byte ≤ (first_byte :: rest).length)
    (tail : Datum) (hnext : v.next (first_byte :: rest) ≠ .wait) :
    v.next (first_byte :: rest ++ tail) = v.next (first_byte :: rest) := by
  have hlong : RtmpPkthd.pkthdLen first_byte ≤ (first_byte :: (rest ++ tail)).length := by
    simp only [List.length_cons, List.length_append] at h ⊢
    omega
  have htake : (first_byte :: (rest ++ tail)).take (RtmpPkthd.pkthdLen first_byte)
      = (first_byte :: rest).take (RtmpPkthd.pkthdLen first_byte) := by
    rw [← List.cons_append, List.take_append_of_le_length h]
  rw [next_header h] at hnext ⊢
  rw [List.cons_append, next_header hlong, htake]
  cases hhd : (v.chans (RtmpPkthd.channelIdOf first_byte)).1.unserial
      ((first_byte :: rest).take (RtmpPkthd.pkthdLen first_byte)) with
  | none => rfl
  | some hd =>
    rw [hhd] at hnext
    dsimp only at hnext ⊢
    split_ifs at hnext with hbody hlen
    · rw [if_pos hbody, if_pos hbody]
    · exact absurd rfl hnext
    · have hlen' : RtmpPkthd.pkthdLen first_byte
          + chunkLen hd (v.chans (RtmpPkthd.channelIdOf first_byte)).2
            ≤ (first_byte :: (rest ++ tail)).length := by
        simp only [List.length_cons, List.length_append] at hlen ⊢
        omega
      rw [if_neg hbody, if_neg hbody, if_neg hlen, if_neg (Nat.not_lt.2 hlen'),
        ← List.cons_append, List.drop_append_of_le_length h, List.take_append_of_le_length]
      rw [List.length_drop]
      omega

theorem whole_of_next (h : v.next (first_byte :: rest) ≠ .wait) :
    RtmpPkthd.pkthdLen first_byte ≤ (first_byte :: rest).length :=
  Nat.not_lt.1 fun hlt => h (next_short hlt)

/-- An item: a header, complete and long enough, and its chunk. -/
theorem item_of_next (h : v.next (first_byte :: rest) = .item v' n) :
    ∃ hd, (v.chans (RtmpPkthd.channelIdOf first_byte)).1.unserial
        ((first_byte :: rest).take (RtmpPkthd.pkthdLen first_byte)) = some hd
      ∧ (v.chans (RtmpPkthd.channelIdOf first_byte)).2.length ≤ hd.body_length
      ∧ n = RtmpPkthd.pkthdLen first_byte
        + chunkLen hd (v.chans (RtmpPkthd.channelIdOf first_byte)).2
      ∧ n ≤ (first_byte :: rest).length
      ∧ v' = v.chunk (RtmpPkthd.channelIdOf first_byte) hd
          ((v.chans (RtmpPkthd.channelIdOf first_byte)).2
            ++ ((first_byte :: rest).drop (RtmpPkthd.pkthdLen first_byte)).take
              (chunkLen hd (v.chans (RtmpPkthd.channelIdOf first_byte)).2)) := by
  have hwait : v.next (first_byte :: rest) ≠ .wait := by
    rw [h]
    exact nofun
  rw [next_header (whole_of_next hwait)] at h
  cases hhd : (v.chans (RtmpPkthd.channelIdOf first_byte)).1.unserial
      ((first_byte :: rest).take (RtmpPkthd.pkthdLen first_byte)) with
  | none => simp [hhd] at h
  | some hd =>
    rw [hhd] at h
    dsimp only at h
    split_ifs at h with hbody hwait
    obtain ⟨rfl, rfl⟩ := Verdict.item.inj h
    exact ⟨hd, rfl, Nat.not_lt.1 hbody, rfl, Nat.not_lt.1 hwait, rfl⟩

/-- A header which waits for its chunk. -/
theorem wait_of_next (hlen : RtmpPkthd.pkthdLen first_byte ≤ (first_byte :: rest).length)
    (h : v.next (first_byte :: rest) = .wait) :
    ∃ hd, (v.chans (RtmpPkthd.channelIdOf first_byte)).1.unserial
        ((first_byte :: rest).take (RtmpPkthd.pkthdLen first_byte)) = some hd
      ∧ (v.chans (RtmpPkthd.channelIdOf first_byte)).2.length ≤ hd.body_length
      ∧ (first_byte :: rest).length < RtmpPkthd.pkthdLen first_byte
        + chunkLen hd (v.chans (RtmpPkthd.channelIdOf first_byte)).2 := by
  rw [next_header hlen] at h
  cases hhd : (v.chans (RtmpPkthd.channelIdOf first_byte)).1.unserial
      ((first_byte :: rest).take (RtmpPkthd.pkthdLen first_byte)) with
  | none => simp [hhd] at h
  | some hd =>
    rw [hhd] at h
    dsimp only at h
    split_ifs at h with hbody hwait
    exact ⟨hd, rfl, Nat.not_lt.1 hbody, hwait⟩

theorem len_of_next (h : v.next (first_byte :: rest) = .item v' n) :
    0 < n ∧ n ≤ (first_byte :: rest).length := by
  obtain ⟨hd, -, -, rfl, hle, -⟩ := item_of_next h
  have hpos := RtmpPkthd.pkthdLen_pos first_byte
  exact ⟨by omega, hle⟩

end Next

theorem next_append_of {b : Datum} {v : View} {verdict : Verdict View Unit} (tail : Datum)
    (h : v.next b = verdict) (hverdict : verdict ≠ .wait) : v.next (b ++ tail) = verdict := by
  subst h
  cases b with
  | nil => exact absurd rfl hverdict
  | cons first_byte rest => exact next_append (whole_of_next hverdict) tail hverdict

/-- The parser of packets as a decoder. -/
def decoder : Decoder View UInt8 Unit where
  next := next
  item_pos := fun {_ b _ _} h => match b with
    | [] => nomatch h
    | _ :: _ => (len_of_next h).1
  item_le := fun {_ b _ _} h => match b with
    | [] => nomatch h
    | _ :: _ => (len_of_next h).2
  item_append := fun c h => next_append_of c h nofun
  fault_append := fun c h => next_append_of c h nofun

/-- What is left waiting is less than a header and a chunk. -/
theorem length_of_wait {v : View} {b : Datum} (h : v.next b = .wait) : b.length < 140 := by
  cases b with
  | nil => exact Nat.succ_pos _
  | cons first_byte rest =>
    have hle := RtmpPkthd.pkthdLen_le first_byte
    rcases Nat.lt_or_ge (first_byte :: rest).length (RtmpPkthd.pkthdLen first_byte) with hlt | hlen
    · omega
    · obtain ⟨hd, -, -, hwait⟩ := wait_of_next hlen h
      have hchunk : chunkLen hd (v.chans (RtmpPkthd.channelIdOf first_byte)).2
          ≤ RtmpPkthd.chunkMaxlen := Nat.min_le_right _ _
      rw [RtmpPkthd.chunkMaxlen] at hchunk
      omega

end View

/-! ### `parse_packet` decodes -/

section Refines

/-- A callback which keeps the parser. -/
def keepAll : List RtmpEvent → Bool := fun _ => true

variable {p p' : RtmpParse} {chanctx : RtmpChanctx} {hd : RtmpPkthd} {chunk_body : Datum}
  {first_byte : UInt8} {rest : Datum} {v : View} {n : ℕ}

/-- The parser goes on, with another view and another buffer. -/
structure Goes (p p' : RtmpParse) (v : View) (buffer : Datum) : Prop where
  view : p'.view = v
  buffer : p'.buffer = buffer
  running : p'.status = .running
  maxlen : p'.buffer_maxlen = p.buffer_maxlen

theorem view_setChanctx (p : RtmpParse) (chanctx : RtmpChanctx)
    (h : (p.chanctxByChannelId chanctx.channel_id).isSome) :
    (p.setChanctx chanctx).view = p.view.part chanctx.channel_id chanctx.last_pkthd
      chanctx.body_buffer := by
  rw [view, View.part, View.mk.injEq]
  refine ⟨?_, rfl⟩
  funext other
  rw [chanctx_setChanctx h]
  by_cases hid : other = chanctx.channel_id
  · rw [if_pos hid, hid, Function.update_self]
  · rw [if_neg hid, Function.update_of_ne hid]
    rfl

theorem status_notifyCallback_keepAll (p : RtmpParse) (event : RtmpEvent) :
    (p.notifyCallback keepAll event).status = p.status := rfl

theorem status_setChanctx (p : RtmpParse) (chanctx : RtmpChanctx) :
    (p.setChanctx chanctx).status = p.status := rfl

variable (p chanctx hd chunk_body) in
theorem goes_notifyChunk (hrun : p.status = .running)
    (h : (p.chanctxByChannelId chanctx.channel_id).isSome)
    (hle : (chanctx.body_buffer ++ chunk_body).length ≤ hd.body_length) :
    Goes p (p.notifyChunk keepAll chanctx hd chunk_body)
      (p.view.chunk chanctx.channel_id hd (chanctx.body_buffer ++ chunk_body)) p.buffer := by
  rcases Nat.lt_or_eq_of_le hle with hlt | heq
  · rw [notifyChunk_part hlt, View.chunk, if_pos hlt]
    exact ⟨view_setChanctx p _ h, rfl, hrun, rfl⟩
  · rw [notifyChunk_whole heq, View.chunk, if_neg (Nat.not_lt.2 heq.ge)]
    dsimp only
    rw [if_neg (by rw [status_notifyCallback_keepAll, status_setChanctx, hrun]; exact nofun)]
    refine ⟨?_, rfl, hrun, rfl⟩
    -- the body is written, the packet notified, and the body cleared
    have hset := view_setChanctx p { chanctx with
      last_pkthd := hd, body_buffer := chanctx.body_buffer ++ chunk_body } h
    have hclear := view_setChanctx ((p.setChanctx { chanctx with
      last_pkthd := hd, body_buffer := chanctx.body_buffer ++ chunk_body }).notifyCallback keepAll
        (.packet hd (chanctx.body_buffer ++ chunk_body)))
      { chanctx with last_pkthd := hd, body_buffer := [] } (isSome_setChanctx h)
    rw [hclear, View.part, View.deliver, View.mk.injEq]
    refine ⟨?_, rfl⟩
    show Function.update (view (p.setChanctx _)).chans _ _ = _
    rw [hset]
    exact Function.update_idem _ _ _

variable (chanctx) in
theorem chunkLen_eq (hle : chanctx.body_buffer.length ≤ hd.body_length) :
    chanctx.chunkLen hd = View.chunkLen hd chanctx.body_buffer := by
  rw [RtmpChanctx.chunkLen, sizeSub, if_pos hle, View.chunkLen]

theorem view_taken : (p.taken first_byte hd).view = p.view := by
  simp only [view, chanctx_taken, events_taken]

theorem view_checked : (p.checked first_byte hd).view = p.view := by
  simp only [view, chanctx_checked, events_checked]

theorem parsePacket_of_item (hrun : p.status = .running)
    (h : p.view.next p.buffer = .item v n) :
    ∃ p', p.parsePacket keepAll = (p', false) ∧ Goes p p' v (p.buffer.drop n) := by
  cases hcons : p.buffer with
  | nil => simp [hcons, View.next] at h
  | cons first_byte rest =>
    rw [hcons] at h
    have hlen := View.whole_of_next (v := p.view) (by rw [h]; exact nofun)
    obtain ⟨hd, hhd, hle, rfl, hwhole, rfl⟩ := View.item_of_next h
    rw [← hcons] at hhd hlen hwhole ⊢
    have hchunk := chunkLen_eq (p.chanctx (RtmpPkthd.channelIdOf first_byte)) hle
    have hwholeLen : p.wholeLen first_byte hd = RtmpPkthd.pkthdLen first_byte
        + View.chunkLen hd (p.view.chans (RtmpPkthd.channelIdOf first_byte)).2 := by
      rw [wholeLen, hchunk]
      rfl
    refine ⟨_, parsePacket_chunk hcons hlen hhd (hwholeLen ▸ hwhole), ?_⟩
    have hgoes := goes_notifyChunk (p.taken first_byte hd)
      (p.chanctx (RtmpPkthd.channelIdOf first_byte)) hd
      (p.chunkBody first_byte hd) (by rwa [status_taken]) isSome_taken (by
        rw [List.length_append, length_chunkBody (hwholeLen ▸ hwhole)]
        exact chunkLen_le hle)
    rw [view_taken, channel_id_chanctx] at hgoes
    rw [← hwholeLen]
    refine ⟨?_, hgoes.buffer, hgoes.running, hgoes.maxlen.trans ?_⟩
    · rw [hgoes.view, chunkBody, hchunk]
      rfl
    · rw [taken, checked, withChanctx]
      split_ifs <;> rfl

theorem parsePacket_of_wait (hrun : p.status = .running)
    (h : p.view.next p.buffer = .wait) :
    ∃ p', p.parsePacket keepAll = (p', true) ∧ Goes p p' p.view p.buffer := by
  rcases parsePacket_front p with hnil | ⟨first_byte, rest, hcons, hlt | hlen⟩
  · exact ⟨p, parsePacket_nil hnil, rfl, rfl, hrun, rfl⟩
  · exact ⟨p, parsePacket_short hcons hlt, rfl, rfl, hrun, rfl⟩
  · rw [hcons] at h hlen
    obtain ⟨hd, hhd, hle, hwait⟩ := View.wait_of_next hlen h
    rw [← hcons] at hhd hlen hwait
    have hchunk := chunkLen_eq (p.chanctx (RtmpPkthd.channelIdOf first_byte)) hle
    refine ⟨_, parsePacket_wait hcons hlen hhd ?_, ?_, ?_, ?_, ?_⟩
    · rw [wholeLen, hchunk]
      exact hwait
    · exact view_checked
    · exact buffer_withChanctx _
    · rw [status_checked, hrun]
    · rw [checked, withChanctx]
      split_ifs <;> rfl

/-- **The loop drains the buffer**, when no failure is met. -/
theorem parseLoop_of_verdict : ∀ {fuel : ℕ} {p : RtmpParse}, p.status = .running →
    View.decoder.verdict p.view p.buffer = .wait → p.buffer.length < fuel →
    ∃ p', p.parseLoop keepAll fuel = some p'
      ∧ Goes p p' (View.decoder.drain p.view p.buffer).1 (View.decoder.drain p.view p.buffer).2 := by
  intro fuel
  induction fuel with
  | zero => exact fun _ _ h => absurd h (Nat.not_lt_zero _)
  | succ fuel ih =>
    intro p hrun hverdict hfuel
    cases hnext : View.decoder.next p.view p.buffer with
    | fault f =>
      rw [Decoder.verdict, Decoder.drain_fault hnext] at hverdict
      exact nomatch hnext.symm.trans hverdict
    | wait =>
      obtain ⟨p', hp', hgoes⟩ := parsePacket_of_wait hrun hnext
      refine ⟨p', ?_, ?_⟩
      · rw [parseLoop, hp']
        exact if_pos (.inr rfl)
      · rw [Decoder.drain_wait hnext]
        exact hgoes
    | item v n =>
      obtain ⟨p₁, hp₁, hgoes⟩ := parsePacket_of_item hrun hnext
      have hshort := length_buffer_parsePacket hp₁
      rw [Decoder.verdict_item hnext] at hverdict
      obtain ⟨p', hp', hgoes'⟩ := ih hgoes.running
        (by rw [hgoes.view, hgoes.buffer]; exact hverdict) (by omega)
      refine ⟨p', ?_, ?_⟩
      · rw [parseLoop, hp₁]
        exact (if_neg (by simp [hgoes.running])).trans hp'
      · rw [hgoes.view, hgoes.buffer] at hgoes'
        rw [Decoder.drain_item hnext]
        exact ⟨hgoes'.view, hgoes'.buffer, hgoes'.running, hgoes'.maxlen.trans hgoes.maxlen⟩

/-- And what it leaves is below the limit. -/
theorem parseBuffer_of_verdict (hrun : p.status = .running) (hmax : 139 ≤ p.buffer_maxlen)
    (hverdict : View.decoder.verdict p.view p.buffer = .wait) :
    ∃ p', p.parseBuffer keepAll = some p'
      ∧ Goes p p' (View.decoder.drain p.view p.buffer).1 (View.decoder.drain p.view p.buffer).2 := by
  obtain ⟨p', hp', hgoes⟩ := parseLoop_of_verdict hrun hverdict (Nat.lt_succ_self _)
  have hlen := View.length_of_wait (show View.next _ _ = .wait from hverdict)
  refine ⟨p', ?_, hgoes⟩
  rw [parseBuffer, hp', Option.map_some, checkMaxlen, if_neg]
  rintro ⟨-, hlarge⟩
  rw [hgoes.maxlen, hgoes.buffer] at hlarge
  omega

end Refines

/-! ### Input in pieces -/

/-- The bytes which have come when the timer expires, each time it does: they are given to
`notify_data`, in one call or more, and then the buffer is parsed. -/
def feed (keep : List RtmpEvent → Bool) : RtmpParse → List Datum → Option RtmpParse
  | p, [] => some p
  | p, new_data :: inputs =>
    if p.status = .running then
      ((p.notifyData new_data).parseBuffer keep).bind fun p => p.feed keep inputs
    else some p

theorem feed_of_verdict (inputs : List Datum) {p : RtmpParse} (hrun : p.status = .running)
    (hmax : 139 ≤ p.buffer_maxlen)
    (hsettled : View.decoder.drain p.view p.buffer = (p.view, p.buffer))
    (hverdict : View.decoder.verdict p.view (p.buffer ++ inputs.flatten) = .wait) :
    ∃ p', p.feed keepAll inputs = some p' ∧ p'.status = .running
      ∧ (p'.view, p'.buffer) = View.decoder.drain p.view (p.buffer ++ inputs.flatten) := by
  rw [← Decoder.feed_eq_drain hsettled]
  clear hsettled
  induction inputs generalizing p with
  | nil => exact ⟨p, rfl, hrun, rfl⟩
  | cons new_data inputs ih =>
    rw [List.flatten_cons, ← List.append_assoc] at hverdict
    obtain ⟨p₁, hp₁, hgoes⟩ := parseBuffer_of_verdict (p := p.notifyData new_data) hrun hmax
      (Decoder.verdict_of_append hverdict)
    have hview : (p.notifyData new_data).view = p.view := rfl
    have hbuffer : (p.notifyData new_data).buffer = p.buffer ++ new_data := rfl
    rw [hview, hbuffer] at hgoes
    have hdrain : View.decoder.drain p.view (p.buffer ++ new_data) = (p₁.view, p₁.buffer) := by
      rw [hgoes.view, hgoes.buffer]
    have hwhole := Decoder.drain_append (D := View.decoder) p.view (p.buffer ++ new_data)
      inputs.flatten
    rw [hdrain] at hwhole
    obtain ⟨p', hp', hrun', hfeed⟩ := ih hgoes.running (hgoes.maxlen ▸ hmax)
      (by rw [Decoder.verdict, ← hwhole]; exact hverdict)
    refine ⟨p', ?_, hrun', ?_⟩
    · rw [feed, if_pos hrun, hp₁]
      exact hp'
    · rw [hfeed, Decoder.feed, Decoder.feed, List.foldl_cons, hdrain]

/-! ### A packet goes through the decoder -/

namespace View

variable {v : View} {hd : RtmpPkthd} {body : Datum}

/-- A header with its chunk, wherever the rest of the stream begins. -/
theorem drain_chunk (v : View) (first_byte : UInt8) (header tail : Datum) {chunk_body body : Datum}
    {last hd : RtmpPkthd} (hheader : RtmpPkthd.pkthdLen first_byte = (first_byte :: header).length)
    (hchans : v.chans (RtmpPkthd.channelIdOf first_byte) = (last, body))
    (hhd : last.unserial (first_byte :: header) = some hd)
    (hle : body.length ≤ hd.body_length) (hchunk : chunk_body.length = chunkLen hd body) :
    decoder.drain v (first_byte :: header ++ chunk_body ++ tail)
      = decoder.drain (v.chunk (RtmpPkthd.channelIdOf first_byte) hd (body ++ chunk_body)) tail := by
  have hassoc : first_byte :: header ++ chunk_body ++ tail
      = first_byte :: (header ++ (chunk_body ++ tail)) := by
    simp only [List.cons_append, List.append_assoc]
  have hlen : RtmpPkthd.pkthdLen first_byte
      ≤ (first_byte :: (header ++ (chunk_body ++ tail))).length := by
    rw [hheader]
    simp only [List.length_cons, List.length_append]
    omega
  have htake : (first_byte :: (header ++ (chunk_body ++ tail))).take
      (RtmpPkthd.pkthdLen first_byte) = first_byte :: header := by
    rw [hheader, ← List.cons_append, List.take_left]
  have hdrop : (first_byte :: (header ++ (chunk_body ++ tail))).drop
      (RtmpPkthd.pkthdLen first_byte) = chunk_body ++ tail := by
    rw [hheader, ← List.cons_append, List.drop_left]
  have hnext : v.next (first_byte :: (header ++ (chunk_body ++ tail)))
      = .item (v.chunk (RtmpPkthd.channelIdOf first_byte) hd (body ++ chunk_body))
        (RtmpPkthd.pkthdLen first_byte + chunk_body.length) := by
    rw [next_header hlen, htake, hdrop, hchans]
    dsimp only
    rw [hhd]
    dsimp only
    rw [if_neg (Nat.not_lt.2 hle), ← hchunk, List.take_left, if_neg]
    rw [hheader]
    simp only [List.length_cons, List.length_append]
    omega
  have hitem : decoder.next v (first_byte :: (header ++ (chunk_body ++ tail))) = _ := hnext
  rw [hassoc, Decoder.drain_item hitem, ← List.drop_drop, hdrop, List.drop_left]

/-- **The chunks of a body** which has come as far as the offset, one after the other. -/
theorem drain_bodyChunks (hchannel : hd.channel_id.toNat < 64) (htype : hd.isNull = false)
    (hlength : hd.body_length = body.length) (tail : Datum) : ∀ (fuel offset : ℕ) (v : View),
    0 < offset → offset < body.length → body.length ≤ offset + fuel →
    v.chans hd.channel_id = (hd, body.take offset) →
    decoder.drain v (RtmpBuild.bodyChunks hd.channel_id body fuel offset ++ tail)
      = decoder.drain (v.deliver hd.channel_id hd body) tail := by
  -- by induction on the fuel: each turn reads one chunk behind its one-byte header
  intro fuel
  induction fuel with
  | zero =>
    intro offset v _ hlt hfuel
    omega
  | succ fuel ih =>
    intro offset v hpos hlt hfuel hchans
    have hsep := RtmpPkthd.channelIdOf_separator hchannel
    have htaken : (body.take offset).length = offset := by
      rw [List.length_take]
      omega
    have hunserial := RtmpPkthd.unserial_separator hchannel htype
    have hchunk : ((body.drop offset).take (min (body.length - offset)
        RtmpPkthd.chunkMaxlen)).length = chunkLen hd (body.take offset) := by
      rw [chunkLen, htaken, hlength, List.length_take, List.length_drop]
      omega
    have hstep := drain_chunk v (RtmpPkthd.separator hd.channel_id) []
      (RtmpBuild.bodyChunks hd.channel_id body fuel
        (offset + RtmpPkthd.chunkMaxlen) ++ tail) (RtmpPkthd.pkthdLen_separator hchannel)
      (by rw [hsep]; exact hchans) hunserial (by rw [htaken, hlength]; omega) hchunk
    rw [RtmpBuild.bodyChunks, if_pos hlt]
    dsimp only
    rw [if_pos hpos, List.append_assoc, hstep, hsep]
    have hgrown : body.take offset ++ (body.drop offset).take (min (body.length - offset)
        RtmpPkthd.chunkMaxlen) = body.take (offset + RtmpPkthd.chunkMaxlen) := by
      rw [List.take_add, ← List.length_drop, Nat.min_comm, ← List.take_take, List.take_length]
    rw [hgrown, chunk]
    by_cases hmore : offset + RtmpPkthd.chunkMaxlen < body.length
    -- the body is not whole yet
    · rw [if_pos (by rw [List.length_take, hlength]; omega)]
      rw [ih (offset + RtmpPkthd.chunkMaxlen) _ (by omega) hmore
        (by rw [RtmpPkthd.chunkMaxlen]; omega) (Function.update_self _ _ _)]
      rw [part, deliver, deliver]
      dsimp only
      rw [Function.update_idem]
    · rw [if_neg (by rw [List.length_take, hlength]; omega),
        List.take_of_length_le (Nat.not_lt.1 hmore)]
      have hnone : RtmpBuild.bodyChunks hd.channel_id body fuel
          (offset + RtmpPkthd.chunkMaxlen) = [] := by
        cases fuel with
        | zero => rfl
        | succ fuel => exact if_neg hmore
      rw [hnone, List.nil_append]

variable (hd) in
/-- The header and all the chunks of a packet. -/
theorem drain_packet (last : RtmpPkthd) (hchannel : hd.channel_id.toNat < 64)
    (htype : hd.isNull = false) (htimestamp : hd.timestamp < 2 ^ 24)
    (hlength : hd.body_length = body.length) (hbody : body.length < 2 ^ 24)
    (hchans : v.chans hd.channel_id = (last, [])) (tail : Datum) :
    decoder.drain v (hd.serialize ++ RtmpBuild.bodyChunks hd.channel_id body body.length 0 ++ tail)
      = decoder.drain (v.deliver hd.channel_id hd body) tail := by
  have hid := RtmpPkthd.channelIdOf_of_lt hchannel
  have hunserial := RtmpPkthd.unserial_serialize last hchannel htype htimestamp (hlength ▸ hbody)
  have hchunk : (body.take RtmpPkthd.chunkMaxlen).length = chunkLen hd [] := by
    rw [chunkLen, List.length_take, hlength, List.length_nil, Nat.sub_zero, Nat.min_comm]
  -- the first chunk, whatever follows it
  have hfirst (rest : Datum) : decoder.drain v
      (hd.serialize ++ body.take RtmpPkthd.chunkMaxlen ++ rest)
      = decoder.drain (v.chunk hd.channel_id hd (body.take RtmpPkthd.chunkMaxlen)) rest := by
    have hstep := drain_chunk v _ _ rest
      (RtmpPkthd.pkthdLen_of_lt hchannel) (by rw [hid]; exact hchans) hunserial (Nat.zero_le _)
      hchunk
    rw [hid] at hstep
    exact hstep
  by_cases hmore : RtmpPkthd.chunkMaxlen < body.length
  · obtain ⟨fuel, hfuel⟩ : ∃ fuel, body.length = fuel + 1 := ⟨body.length - 1, by omega⟩
    have hmin : min (body.length - 0) RtmpPkthd.chunkMaxlen = RtmpPkthd.chunkMaxlen := by omega
    have hchunks : RtmpBuild.bodyChunks hd.channel_id body body.length 0
        = body.take RtmpPkthd.chunkMaxlen
          ++ RtmpBuild.bodyChunks hd.channel_id body fuel RtmpPkthd.chunkMaxlen := by
      conv_lhs => rw [hfuel, RtmpBuild.bodyChunks, if_pos (by omega)]
      dsimp only
      rw [hmin, if_neg (Nat.lt_irrefl 0), List.nil_append, List.drop_zero, Nat.zero_add]
    rw [hchunks, ← List.append_assoc, List.append_assoc _ _ tail, hfirst, chunk,
      if_pos (by rw [List.length_take, hlength]; omega),
      drain_bodyChunks hchannel htype hlength tail fuel _ _ (by decide) hmore
        (by rw [RtmpPkthd.chunkMaxlen]; omega) (Function.update_self _ _ _)]
    rw [part, deliver, deliver]
    dsimp only
    rw [Function.update_idem]
  · have hall : body.take RtmpPkthd.chunkMaxlen = body :=
      List.take_of_length_le (Nat.not_lt.1 hmore)
    have hchunks : RtmpBuild.bodyChunks hd.channel_id body body.length 0 = body := by
      cases hlen : body.length with
      | zero =>
        rw [List.eq_nil_of_length_eq_zero hlen]
        rfl
      | succ fuel =>
        rw [RtmpBuild.bodyChunks, if_pos (by omega)]
        have hnone : RtmpBuild.bodyChunks hd.channel_id body fuel (0 + RtmpPkthd.chunkMaxlen)
            = [] := by
          cases fuel with
          | zero => rfl
          | succ fuel => exact if_neg (by omega)
        dsimp only
        rw [hnone, if_neg (Nat.lt_irrefl 0), List.nil_append, List.append_nil, List.drop_zero]
        exact List.take_of_length_le (by omega)
    rw [hall] at hfirst
    rw [hchunks, hfirst, chunk, if_neg (by omega)]

end View

/-! ### The round trip -/

/-- What is delivered of a packet: its header, with the length of its body, and its body. -/
def packetEvent (pkt : RtmpPkthd × Datum) : RtmpEvent :=
  .packet { pkt.1 with body_length := pkt.2.length } pkt.2

/-- The packets, serialized one after the other. -/
def stream (pkts : List (RtmpPkthd × Datum)) : Datum :=
  pkts.flatMap fun pkt => RtmpBuild.serialize pkt.1 pkt.2

/-- The channel of a packet fits in its bits of the first byte, and the packet has a type. -/
def Readable (pkt : RtmpPkthd × Datum) : Prop :=
  pkt.1.channel_id.toNat < 64 ∧ pkt.1.isNull = false

/-- The two fields of 24 bits have room for what the packet has. -/
def Fits (pkt : RtmpPkthd × Datum) : Prop := pkt.1.timestamp < 2 ^ 24 ∧ pkt.2.length < 2 ^ 24

/-- Exactly these packets are delivered, and nothing else happens. -/
def Delivers (pkts : List (RtmpPkthd × Datum)) (inputs : List Datum) : Prop :=
  ∃ p, (start bufferMaxlen).feed keepAll inputs = some p ∧ p.status = .running
    ∧ p.events = pkts.map packetEvent

theorem drain_stream {pkts : List (RtmpPkthd × Datum)} (hread : ∀ pkt ∈ pkts, Readable pkt)
    (hfits : ∀ pkt ∈ pkts, Fits pkt) {v : View} (hempty : ∀ id, (v.chans id).2 = []) :
    ∃ v', View.decoder.drain v (stream pkts) = (v', [])
      ∧ v'.events = v.events ++ pkts.map packetEvent := by
  induction pkts generalizing v with
  | nil => exact ⟨v, rfl, (List.append_nil _).symm⟩
  | cons pkt pkts ih =>
    obtain ⟨pkthd, body⟩ := pkt
    obtain ⟨hchannel, htype⟩ := hread _ (.head _)
    obtain ⟨htimestamp, hbody⟩ := hfits _ (.head _)
    have hpkt := View.drain_packet { pkthd with body_length := body.length }
      (v.chans pkthd.channel_id).1 hchannel htype htimestamp rfl hbody
      (Prod.ext rfl (hempty _)) (stream pkts)
    obtain ⟨v', hdrain, hevents⟩ := ih (fun q hq => hread q (.tail _ hq))
      (fun q hq => hfits q (.tail _ hq))
      (v := v.deliver pkthd.channel_id { pkthd with body_length := body.length } body)
      (fun id => by
        show (Function.update v.chans _ _ id).2 = []
        rw [Function.update_apply]
        split_ifs
        · rfl
        · exact hempty id)
    refine ⟨v', ?_, ?_⟩
    · rw [← hdrain, ← hpkt]
      rfl
    · rw [hevents, View.deliver, List.append_assoc]
      rfl

/-- Packets which are readable are delivered, however their bytes are cut. -/
theorem delivers_of_readable {pkts : List (RtmpPkthd × Datum)} {inputs : List Datum}
    (hfits : ∀ pkt ∈ pkts, Fits pkt) (hread : ∀ pkt ∈ pkts, Readable pkt)
    (hinputs : inputs.flatten = stream pkts) : Delivers pkts inputs := by
  have hempty (id : UInt8) : ((start bufferMaxlen).view.chans id).2 = [] := rfl
  obtain ⟨v', hdrain, hevents⟩ := drain_stream hread hfits hempty
  obtain ⟨p, hp, hrun, hview⟩ := feed_of_verdict (p := start bufferMaxlen) inputs rfl
    (by decide) rfl (by
      rw [hinputs, Decoder.verdict]
      show View.decoder.next (View.decoder.drain _ (stream pkts)).1
        (View.decoder.drain _ (stream pkts)).2 = _
      rw [hdrain]
      rfl)
  refine ⟨p, hp, hrun, ?_⟩
  have hfinal : (p.view, p.buffer) = (v', []) := by
    rw [hview, hinputs]
    exact hdrain
  have hsame : p.events = p.view.events := rfl
  rw [hsame, (Prod.mk.inj hfinal).1, hevents]
  rfl

/-! ### What is never delivered -/

/-- The packets which were delivered are such as can be read. -/
def ReadsOnly (p : RtmpParse) : Prop :=
  ∀ pkthd pktdata, .packet pkthd pktdata ∈ p.events → Readable (pkthd, pktdata)

section ReadsOnly

variable {keep : List RtmpEvent → Bool} {p p' : RtmpParse} {first_byte : UInt8} {rest : Datum}
  {hd : RtmpPkthd}

/-- A header which has been read has a channel of six bits, and a type. -/
theorem readable_of_header (hcons : p.buffer = first_byte :: rest)
    (hlen : RtmpPkthd.pkthdLen first_byte ≤ p.buffer.length) (h : p.header first_byte = some hd)
    (body : Datum) : Readable (hd, body) := by
  obtain ⟨m, hm⟩ : ∃ m, RtmpPkthd.pkthdLen first_byte = m + 1 :=
    ⟨_, (Nat.sub_add_cancel (RtmpPkthd.pkthdLen_pos first_byte)).symm⟩
  rw [header, hcons, hm, List.take_succ_cons, RtmpPkthd.unserial, Option.filter_eq_some_iff] at h
  obtain ⟨hover, hnull⟩ := h
  have htakelen : RtmpPkthd.pkthdLen first_byte ≤ (first_byte :: rest.take m).length := by
    rw [hcons, hm] at hlen
    rw [hm, List.length_cons, List.length_take]
    simp only [List.length_cons] at hlen
    omega
  obtain ⟨hd', hover', hchannel, -⟩ := RtmpPkthd.overlay_spec
    (p.chanctx (RtmpPkthd.channelIdOf first_byte)).last_pkthd htakelen
  obtain rfl := Option.some.inj (hover.symm.trans hover')
  refine ⟨?_, by simpa using hnull⟩
  show hd.channel_id.toNat < 64
  rw [hchannel, RtmpPkthd.toNat_channelIdOf]
  exact Nat.mod_lt _ (by decide)

theorem ReadsOnly.notifyCallback (keep) (h : ReadsOnly p) {event : RtmpEvent}
    (hevent : ∀ pkthd pktdata, event = .packet pkthd pktdata → Readable (pkthd, pktdata)) :
    ReadsOnly (p.notifyCallback keep event) := fun pkthd pktdata hmem => by
  rcases List.mem_append.1 hmem with hmem | hmem
  · exact h pkthd pktdata hmem
  · exact hevent pkthd pktdata (List.mem_singleton.1 hmem).symm

theorem ReadsOnly.notifyChunk (h : ReadsOnly p) {chanctx : RtmpChanctx} {chunk_body : Datum}
    (hd_readable : ∀ body, Readable (hd, body)) :
    ReadsOnly (p.notifyChunk keep chanctx hd chunk_body) := by
  have hset : ReadsOnly (p.setChanctx { chanctx with
      last_pkthd := hd, body_buffer := chanctx.body_buffer ++ chunk_body }) := h
  rw [RtmpParse.notifyChunk]
  dsimp only
  have hpacket (body : Datum) : ∀ pkthd pktdata,
      RtmpEvent.packet hd body = .packet pkthd pktdata → Readable (pkthd, pktdata) := by
    intro pkthd pktdata he
    obtain ⟨rfl, rfl⟩ := RtmpEvent.packet.inj he
    exact hd_readable body
  split_ifs
  · exact hset.notifyCallback keep (by simp)
  · exact hset
  · exact hset.notifyCallback keep (hpacket _)
  · exact hset.notifyCallback keep (hpacket _)

theorem ReadsOnly.parsePacket (h : ReadsOnly p) : ReadsOnly (p.parsePacket keep).1 := by
  rcases parsePacket_front p with hnil | ⟨first_byte, rest, hcons, hlt | hlen⟩
  · rw [parsePacket_nil hnil]
    exact h
  · rw [parsePacket_short hcons hlt]
    exact h
  · cases hhd : p.header first_byte with
    | none =>
      rw [parsePacket_throw hcons hlen hhd]
      intro pkthd pktdata hmem
      rw [events_withChanctx] at hmem
      exact h pkthd pktdata hmem
    | some hd =>
      rcases Nat.lt_or_ge p.buffer.length (p.wholeLen first_byte hd) with hwait | hchunk
      · rw [parsePacket_wait hcons hlen hhd hwait, ReadsOnly, events_checked]
        exact h
      · have htaken : ReadsOnly (p.taken first_byte hd) := by
          rw [ReadsOnly, events_taken]
          exact h
        rw [parsePacket_chunk hcons hlen hhd hchunk]
        exact htaken.notifyChunk (readable_of_header hcons hlen hhd)

theorem ReadsOnly.step (h : ReadsOnly p) (ev : Ev) : ReadsOnly (step keep p ev) := by
  by_cases hrun : p.status = .running
  · cases ev with
    | data new_data =>
      rw [RtmpParse.step, if_pos hrun]
      exact h
    | packet =>
      rw [RtmpParse.step, if_pos hrun]
      exact h.parsePacket
    | checkMaxlen =>
      rw [RtmpParse.step, if_pos hrun]
      show ReadsOnly (RtmpParse.checkMaxlen keep p)
      rw [RtmpParse.checkMaxlen]
      split_ifs
      · exact ReadsOnly.notifyCallback keep h (by simp)
      · exact h
  · rw [show RtmpParse.step keep p ev = p from if_neg hrun]
    exact h

theorem ReadsOnly.feed {inputs : List Datum} (h : ReadsOnly p)
    (hfeed : p.feed keep inputs = some p') : ReadsOnly p' := by
  induction inputs generalizing p with
  | nil =>
    obtain rfl := Option.some.inj hfeed
    exact h
  | cons new_data inputs ih =>
    rw [RtmpParse.feed] at hfeed
    split_ifs at hfeed with hrun
    · obtain ⟨p₁, hp₁, hrest⟩ := Option.bind_eq_some_iff.1 hfeed
      obtain ⟨n, rfl⟩ := parseBuffer_eq_run keep (p := p.notifyData new_data) hrun hp₁
      refine ih ?_ hrest
      apply run_invariant
      · exact fun q ev hq => hq.step ev
      · exact h
    · obtain rfl := Option.some.inj hfeed
      exact h

end ReadsOnly

/-- **Round trip**: whatever packets are serialized, and however their bytes are cut, exactly
these packets are delivered if and only if the channel of each fits in the six bits it has in
the first byte, and each has a type. -/
theorem delivers_iff (pkts : List (RtmpPkthd × Datum)) (hfits : ∀ pkt ∈ pkts, Fits pkt)
    (inputs : List Datum) (hinputs : inputs.flatten = stream pkts) :
    Delivers pkts inputs ↔ ∀ pkt ∈ pkts, Readable pkt := by
  constructor
  · rintro ⟨p, hp, -, hevents⟩ pkt hpkt
    have hreads : ReadsOnly p :=
      ReadsOnly.feed (p := start bufferMaxlen) (fun _ _ hmem => nomatch hmem) hp
    have hmem : packetEvent pkt ∈ p.events := by
      rw [hevents]
      exact List.mem_map_of_mem hpkt
    exact hreads { pkt.1 with body_length := pkt.2.length } pkt.2 hmem
  · exact fun hread => delivers_of_readable hfits hread hinputs

/-- A packet of 130 bytes, which takes two chunks, and an empty one on the same channel, in
pieces of which the first one ends in a header and the second one in a body. -/
theorem delivers_iff_sample :
    let pkts : List (RtmpPkthd × Datum) :=
      [(⟨3, 5, 0, some 0x14, 1⟩, List.replicate 130 7), (⟨3, 6, 0, some 0x08, 1⟩, [])]
    Delivers pkts [(stream pkts).take 5, ((stream pkts).drop 5).take 70, (stream pkts).drop 75] := by
  intro pkts
  refine (delivers_iff pkts ?_ _ ?_).2 ?_
  · simp [pkts, Fits]
  · decide +kernel
  · intro pkt hpkt
    rcases List.mem_cons.1 hpkt with rfl | hpkt
    · exact ⟨by decide, rfl⟩
    · obtain rfl := List.mem_singleton.1 hpkt
      exact ⟨by decide, rfl⟩

/-- A packet on the channel 64: its first byte is read as the one of a header of eight bytes on
the channel 0. -/
theorem not_delivers :
    let pkts : List (RtmpPkthd × Datum) := [(⟨64, 0, 0, some 0x14, 0⟩, [])]
    (∀ pkt ∈ pkts, Fits pkt) ∧ ¬ Delivers pkts [stream pkts] := by
  refine ⟨by simp [Fits], ?_⟩
  rintro ⟨p, hp, -, hevents⟩
  have hsome : (start bufferMaxlen).feed keepAll [stream [(⟨64, 0, 0, some 0x14, 0⟩, [])]]
      |>.all fun p => p.events ≠ [packetEvent (⟨64, 0, 0, some 0x14, 0⟩, [])] := by
    decide +kernel
  rw [hp] at hsome
  simp [hevents] at hsome

end RtmpParse

end Neoip
