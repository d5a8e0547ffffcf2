/-
Neoip/Flv.lean

The parser of flash video: `flv_parse_t`.

A file is a header of nine bytes and then tags: fifteen bytes which say how
long the body is, and the body.  The bytes are appended to a buffer as they
come, and a timer has the buffer parsed.  A turn of the loop of `parse_buffer`
looks at the front of the buffer; an item is notified before it is taken off,
and an item which is not complete stops the loop.

A header which cannot be read is notified as an error.  The loop goes on then:
`unserial_peek` puts back what it has read only when nothing is thrown, so that
the bytes which were read before the error are gone.

Main results: `turn_eq`, what a turn does, by what is at the front of the
buffer, and `parseBuffer_isSome`: the loop always comes to an end.
-/
import Neoip.Rtmp
import Neoip.Swarm

namespace Neoip

/-! ### The headers -/

/-- `flv_tophd_t`. -/
structure FlvTophd where
  version : UInt8
  flag : UInt8
deriving DecidableEq, Repr

/-- `flv_taghd_t`; the timestamp is in milliseconds.  The type is a byte: `NONE` is `-1`, which
no byte is read as, so that a header which was read never `is_null`. -/
structure FlvTaghd where
  prevtag_size : ℕ
  type : UInt8
  body_length : ℕ
  timestamp : ℕ
  padding : ℕ
deriving DecidableEq, Repr

namespace FlvTophd

/-- `TOTAL_LENGTH`. -/
def totalLength : ℕ := 9

/-- `OFFSET_VALUE`. -/
def offsetValue : ℕ := 9

def isNull (tophd : FlvTophd) : Bool := tophd.version == 0

/-- `operator >>`.  An error is the reason of the `serial_except_t`, without the line of the
source which `what` adds, and the number of bytes which were read before it is thrown. -/
def unserial : Datum → Except (String × ℕ) FlvTophd
  | c1 :: c2 :: c3 :: version :: flag :: o₀ :: o₁ :: o₂ :: o₃ :: _ =>
    if c1 ≠ 0x46 ∨ c2 ≠ 0x4C ∨ c3 ≠ 0x56 then .error ("Invalid header marker", 3) else
    if readUint32 [o₀, o₁, o₂, o₃] ≠ some (offsetValue, []) then
      .error ("Invalid offset length", 9) else
    let tophd : FlvTophd := ⟨version, flag⟩
    if tophd.isNull then .error ("Invalid null flv_tophd_t", 9) else .ok tophd
  | _ => .error ("not enougth data", 0)

end FlvTophd

namespace FlvTaghd

/-- `TOTAL_LENGTH`. -/
def totalLength : ℕ := 15

/-- A `uint32_t` in four bytes. -/
def uint32Of (b₀ b₁ b₂ b₃ : UInt8) : ℕ :=
  ((b₀.toNat * 256 + b₁.toNat) * 256 + b₂.toNat) * 256 + b₃.toNat

/-- `operator >>`. -/
def unserial : Datum → Except (String × ℕ) FlvTaghd
  | p₀ :: p₁ :: p₂ :: p₃ :: type :: l₀ :: l₁ :: l₂ :: t₀ :: t₁ :: t₂ :: g₀ :: g₁ :: g₂ :: g₃ :: _ =>
    .ok {
      prevtag_size := uint32Of p₀ p₁ p₂ p₃
      type := type
      body_length := RtmpPkthd.unserial24bit l₀ l₁ l₂
      timestamp := RtmpPkthd.unserial24bit t₀ t₁ t₂
      padding := uint32Of g₀ g₁ g₂ g₃ }
  | _ => .error ("not enougth data", 0)

/-- `total_len`, of the header and its body. -/
def totalLen (taghd : FlvTaghd) : ℕ := totalLength + taghd.body_length

end FlvTaghd

theorem FlvTophd.unserial_append {b : Datum} (h : totalLength ≤ b.length) (c : Datum) :
    unserial (b ++ c) = unserial b := by
  match b, h with
  | _ :: _ :: _ :: _ :: _ :: _ :: _ :: _ :: _ :: _, _ => rfl

theorem FlvTaghd.unserial_append {b : Datum} (h : totalLength ≤ b.length) (c : Datum) :
    unserial (b ++ c) = unserial b := by
  match b, h with
  | _ :: _ :: _ :: _ :: _ :: _ :: _ :: _ :: _ :: _ :: _ :: _ :: _ :: _ :: _ :: _, _ => rfl

/-- A header which is bad takes some of its bytes with it. -/
theorem FlvTophd.of_unserial_error {b : Datum} {what : String} {n : ℕ} (h : totalLength ≤ b.length)
    (herr : unserial b = .error (what, n)) : 0 < n ∧ n ≤ totalLength := by
  match b, h with
  | _ :: _ :: _ :: _ :: _ :: _ :: _ :: _ :: _ :: _, _ =>
    simp only [unserial] at herr
    split_ifs at herr
    all_goals
      obtain ⟨-, rfl⟩ := Prod.mk.inj (Except.error.inj herr)
      decide

/-- Every fifteen bytes are the header of a tag. -/
theorem FlvTaghd.exists_unserial {b : Datum} (h : totalLength ≤ b.length) :
    ∃ taghd, unserial b = .ok taghd := by
  match b, h with
  | _ :: _ :: _ :: _ :: _ :: _ :: _ :: _ :: _ :: _ :: _ :: _ :: _ :: _ :: _ :: _, _ => exact ⟨_, rfl⟩

/-! ### The parser -/

/-- `flv_parse_state_t`. -/
inductive FlvParseState
  | tophd
  | tag
deriving DecidableEq, Repr

/-- `flv_parse_event_t`. -/
inductive FlvParseEvent
  | error (reason : String)
  | tophd (tophd : FlvTophd)
  | tag (taghd : FlvTaghd) (tagdata : Datum)
deriving DecidableEq, Repr

/-- `byte_length`, which is asked only of a header and of a tag. -/
def FlvParseEvent.byteLength : FlvParseEvent → ℕ
  | .error _ => 0
  | .tophd _ => FlvTophd.totalLength
  | .tag taghd _ => taghd.totalLen

def FlvParseEvent.isError : FlvParseEvent → Bool
  | .error _ => true
  | _ => false

/-- `flv_parse_t`, what it has notified, and whether its callback has kept it. -/
structure FlvParse where
  state : FlvParseState
  parsed_length : ℕ
  buffer : Datum
  buffer_maxlen : ℕ
  zerotimer : Bool
  events : List FlvParseEvent
  kept : Bool
deriving DecidableEq, Repr

namespace FlvParse

/-- `BUFFER_MAXLEN`, which the profile has unless somebody sets another. -/
def bufferMaxlen : ℕ := 256 * 1024

def start (buffer_maxlen : ℕ) : FlvParse := ⟨.tophd, 0, [], buffer_maxlen, false, [], true⟩

-- The callback: it is told everything which was notified, this event last, and says whether
-- the parser is still there.
variable (keep : List FlvParseEvent → Bool)

/-- `notify_callback`. -/
def notifyCallback (p : FlvParse) (event : FlvParseEvent) : FlvParse :=
  { p with events := p.events ++ [event], kept := keep (p.events ++ [event]) }

/-- `parse_tophd`, and what it leaves in `stop_parsing`. -/
def parseTophd (p : FlvParse) : FlvParse × Bool :=
  if p.buffer.length < FlvTophd.totalLength then (p, true) else
  match FlvTophd.unserial p.buffer with
  | .error (what, n) =>
    let p := { p with buffer := p.buffer.drop n }
    (p.notifyCallback keep (.error ("failed to parse flv_tophd_t due to " ++ what)), false)
  | .ok tophd =>
    let p := p.notifyCallback keep (.tophd tophd)
    if !p.kept then (p, false) else
    ({ p with
        buffer := p.buffer.drop FlvTophd.totalLength
        parsed_length := p.parsed_length + FlvTophd.totalLength
        state := .tag }, false)

/-- `parse_tag`, and what it leaves in `stop_parsing`. -/
def parseTag (p : FlvParse) : FlvParse × Bool :=
  if p.buffer.length < FlvTaghd.totalLength then (p, true) else
  match FlvTaghd.unserial p.buffer with
  | .error (what, n) =>
    let p := { p with buffer := p.buffer.drop n }
    (p.notifyCallback keep (.error ("failed to parse flv_taghd_t due to " ++ what)), false)
  | .ok taghd =>
    let total_len := FlvTaghd.totalLength + taghd.body_length
    if p.buffer.length < total_len then (p, true) else
    let tag_data := (p.buffer.drop FlvTaghd.totalLength).take taghd.body_length
    let p := p.notifyCallback keep (.tag taghd tag_data)
    if !p.kept then (p, false) else
    ({ p with
        buffer := p.buffer.drop total_len
        parsed_length := p.parsed_length + total_len }, false)

/-- The handler of the state. -/
def turn (p : FlvParse) : FlvParse × Bool :=
  match p.state with
  | .tophd => p.parseTophd keep
  | .tag => p.parseTag keep

/-- The loop of `parse_buffer`; `none` when it is not over after `fuel` turns. -/
def parseLoop : ℕ → FlvParse → Option FlvParse
  | 0, _ => none
  | fuel + 1, p =>
    let (p, stop_parsing) := p.turn keep
    if !p.kept || stop_parsing then some p else parseLoop fuel p

/-- What `parse_buffer` does after its loop. -/
def checkMaxlen (p : FlvParse) : FlvParse :=
  if p.kept ∧ p.buffer_maxlen < p.buffer.length then
    notifyCallback keep { p with buffer := [] }
      (.error ("receiving buffer larger than " ++ toString p.buffer_maxlen))
  else p

/-- `parse_buffer`. -/
def parseBuffer (p : FlvParse) : Option FlvParse :=
  (p.parseLoop keep (p.buffer.length + 1)).map (checkMaxlen keep)

/-- `notify_data`. -/
def notifyData (p : FlvParse) (new_data : Datum) : FlvParse :=
  { p with buffer := p.buffer ++ new_data, zerotimer := true }

/-! ### The front of the buffer -/

/-- What is notified of the front of the buffer, and how many bytes it takes; nothing as long as
there is too little. -/
def front : FlvParseState → Datum → Option (FlvParseEvent × ℕ)
  | .tophd, b =>
    if b.length < FlvTophd.totalLength then none else
    match FlvTophd.unserial b with
    | .error (what, n) => some (.error ("failed to parse flv_tophd_t due to " ++ what), n)
    | .ok tophd => some (.tophd tophd, FlvTophd.totalLength)
  | .tag, b =>
    if b.length < FlvTaghd.totalLength then none else
    match FlvTaghd.unserial b with
    | .error (what, n) => some (.error ("failed to parse flv_taghd_t due to " ++ what), n)
    | .ok taghd =>
      if b.length < taghd.totalLen then none else
      some (.tag taghd ((b.drop FlvTaghd.totalLength).take taghd.body_length), taghd.totalLen)

/-- Notify what is at the front.  An item is taken off if the parser is kept; what an error
takes is gone already. -/
def deliver (p : FlvParse) (event : FlvParseEvent) (n : ℕ) : FlvParse :=
  let q := p.notifyCallback keep event
  if event.isError then { q with buffer := p.buffer.drop n }
  else if !q.kept then q
  else { q with buffer := p.buffer.drop n, parsed_length := p.parsed_length + n, state := .tag }

theorem deliver_item {event : FlvParseEvent} (h : event.isError = false) (p : FlvParse) (n : ℕ) :
    p.deliver keep event n = if !(p.notifyCallback keep event).kept then p.notifyCallback keep event
      else { p.notifyCallback keep event with
        buffer := p.buffer.drop n, parsed_length := p.parsed_length + n, state := .tag } := by
  rw [deliver, h]
  rfl

/-- **A turn of the loop.** -/
theorem turn_eq (p : FlvParse) : p.turn keep = match front p.state p.buffer with
    | none => (p, true)
    | some (event, n) => (p.deliver keep event n, false) := by
  cases hstate : p.state with
  | tophd =>
    rw [turn, hstate]
    dsimp only
    rw [parseTophd, front]
    split_ifs with hlen
    · rfl
    · cases FlvTophd.unserial p.buffer with
      | error e => rfl
      | ok tophd =>
        dsimp only
        rw [deliver_item keep rfl]
        split_ifs
        · rfl
        · rfl
  | tag =>
    rw [turn, hstate]
    dsimp only
    rw [parseTag, front]
    split_ifs with hlen
    · rfl
    · cases FlvTaghd.unserial p.buffer with
      | error e => rfl
      | ok taghd =>
        dsimp only
        by_cases hwait : p.buffer.length < taghd.totalLen
        · rw [if_pos hwait]
          exact if_pos hwait
        · -- the state is `TAG` already
          have hsame : ∀ event, p.notifyCallback keep event
              = { p.notifyCallback keep event with state := .tag } := by
            intro event
            rw [← hstate]
            rfl
          rw [if_neg hwait]
          refine (if_neg hwait).trans ?_
          dsimp only
          rw [deliver_item keep rfl, hsame]
          split_ifs
          · rfl
          · rfl

section Front

variable {st : FlvParseState} {b : Datum} {event : FlvParseEvent} {n : ℕ}

theorem front_short (h : b.length < FlvTophd.totalLength) : front st b = none := by
  cases st with
  | tophd => exact if_pos h
  | tag => exact if_pos (Nat.lt_trans h (by decide))

theorem front_tophd (h : FlvTophd.totalLength ≤ b.length) :
    front .tophd b = match FlvTophd.unserial b with
      | .error (what, n) => some (.error ("failed to parse flv_tophd_t due to " ++ what), n)
      | .ok tophd => some (.tophd tophd, FlvTophd.totalLength) :=
  if_neg (Nat.not_lt.2 h)

theorem front_tag {taghd : FlvTaghd} (h : FlvTaghd.totalLength ≤ b.length)
    (hhd : FlvTaghd.unserial b = .ok taghd) :
    front .tag b = if b.length < taghd.totalLen then none else
      some (.tag taghd ((b.drop FlvTaghd.totalLength).take taghd.body_length),
        taghd.totalLen) := by
  rw [front, if_neg (Nat.not_lt.2 h), hhd]

/-- **What is notified**: a bad header, a header, or a tag with its body. -/
theorem front_eq_some_iff : front st b = some (event, n) ↔
    (st = .tophd ∧ FlvTophd.totalLength ≤ b.length ∧ ∃ what,
        FlvTophd.unserial b = .error (what, n)
          ∧ event = .error ("failed to parse flv_tophd_t due to " ++ what))
      ∨ (st = .tophd ∧ FlvTophd.totalLength ≤ b.length ∧ n = FlvTophd.totalLength
          ∧ ∃ tophd, FlvTophd.unserial b = .ok tophd ∧ event = .tophd tophd)
      ∨ st = .tag ∧ FlvTaghd.totalLength ≤ b.length ∧ ∃ taghd, FlvTaghd.unserial b = .ok taghd
        ∧ taghd.totalLen ≤ b.length ∧ n = taghd.totalLen
        ∧ event = .tag taghd ((b.drop FlvTaghd.totalLength).take taghd.body_length) := by
  cases st with
  | tophd =>
    by_cases hlen : FlvTophd.totalLength ≤ b.length
    · rw [front_tophd hlen]
      cases FlvTophd.unserial b with
      | error e => simp [hlen, Prod.ext_iff, eq_comm, and_comm]
      | ok tophd => simp [hlen, eq_comm, and_comm]
    · simp [front, Nat.not_le.1 hlen, hlen]
  | tag =>
    by_cases hlen : FlvTaghd.totalLength ≤ b.length
    · obtain ⟨taghd, hhd⟩ := FlvTaghd.exists_unserial hlen
      rw [front_tag hlen hhd]
      by_cases hwait : b.length < taghd.totalLen
      · simp [hwait, hhd]
      · simp [hwait, hhd, hlen, Nat.not_lt.1 hwait, eq_comm, and_comm]
    · simp [front, Nat.not_le.1 hlen, hlen]

theorem front_pos (h : front st b = some (event, n)) : 0 < n := by
  rcases front_eq_some_iff.1 h with ⟨-, hlen, what, herr, -⟩ | ⟨-, -, rfl, -⟩
    | ⟨-, -, taghd, -, -, rfl, -⟩
  · exact (FlvTophd.of_unserial_error hlen herr).1
  · decide
  · exact Nat.lt_of_lt_of_le (by decide) (Nat.le_add_right FlvTaghd.totalLength _)

theorem front_le (h : front st b = some (event, n)) : n ≤ b.length := by
  rcases front_eq_some_iff.1 h with ⟨-, hlen, what, herr, -⟩ | ⟨-, hlen, rfl, -⟩
    | ⟨-, -, taghd, -, hlen, rfl, -⟩
  · exact (FlvTophd.of_unserial_error hlen herr).2.trans hlen
  · exact hlen
  · exact hlen

/-- An item takes what it says it is long. -/
theorem front_byteLength (h : front st b = some (event, n)) (hitem : event.isError = false) :
    event.byteLength = n := by
  rcases front_eq_some_iff.1 h with ⟨-, -, what, -, rfl⟩ | ⟨-, -, rfl, tophd, -, rfl⟩
    | ⟨-, -, taghd, -, -, rfl, rfl⟩
  · exact absurd hitem (by simp [FlvParseEvent.isError])
  · rfl
  · rfl

/-- What comes behind does not change the front. -/
theorem front_append (c : Datum) (h : front st b = some (event, n)) :
    front st (b ++ c) = some (event, n) := by
  have hle : b.length ≤ (b ++ c).length := by simp
  rcases front_eq_some_iff.1 h with ⟨rfl, hlen, what, herr, rfl⟩
    | ⟨rfl, hlen, rfl, tophd, hhd, rfl⟩ | ⟨rfl, hlen, taghd, hhd, htotal, rfl, rfl⟩
  · refine front_eq_some_iff.2 (.inl ⟨rfl, hlen.trans hle, what, ?_, rfl⟩)
    rw [FlvTophd.unserial_append hlen, herr]
  · refine front_eq_some_iff.2 (.inr (.inl ⟨rfl, hlen.trans hle, rfl, tophd, ?_, rfl⟩))
    rw [FlvTophd.unserial_append hlen, hhd]
  · refine front_eq_some_iff.2 (.inr (.inr
      ⟨rfl, hlen.trans hle, taghd, ?_, htotal.trans hle, rfl, ?_⟩))
    · rw [FlvTaghd.unserial_append hlen, hhd]
    · have hbody : taghd.body_length ≤ (b.drop FlvTaghd.totalLength).length := by
        rw [List.length_drop]
        exact Nat.le_sub_of_add_le' htotal
      rw [List.drop_append_of_le_length hlen, List.take_append_of_le_length hbody]

end Front

/-! ### The loop comes to an end -/

section Loop

variable {keep} {p p' : FlvParse} {fuel n : ℕ} {event : FlvParseEvent}

theorem kept_deliver : (p.deliver keep event n).kept = keep (p.events ++ [event]) := by
  rw [deliver]
  split_ifs
  · rfl
  · rfl
  · rfl

theorem events_deliver : (p.deliver keep event n).events = p.events ++ [event] := by
  rw [deliver]
  split_ifs
  · rfl
  · rfl
  · rfl

theorem maxlen_deliver : (p.deliver keep event n).buffer_maxlen = p.buffer_maxlen := by
  rw [deliver]
  split_ifs
  · rfl
  · rfl
  · rfl

/-- What was notified is gone from the buffer of a parser which is kept. -/
theorem buffer_deliver (hkeep : keep (p.events ++ [event]) = true) :
    (p.deliver keep event n).buffer = p.buffer.drop n := by
  have hkept : (p.notifyCallback keep event).kept = true := hkeep
  rw [deliver]
  split_ifs with herror hdead
  · rfl
  · rw [hkept] at hdead
    exact absurd hdead (by simp)
  · rfl

theorem parseLoop_none (h : front p.state p.buffer = none) :
    p.parseLoop keep (fuel + 1) = some p := by
  rw [parseLoop, turn_eq, h]
  simp

theorem parseLoop_some (h : front p.state p.buffer = some (event, n)) :
    p.parseLoop keep (fuel + 1) = if keep (p.events ++ [event])
      then (p.deliver keep event n).parseLoop keep fuel else some (p.deliver keep event n) := by
  rw [parseLoop, turn_eq, h]
  dsimp only
  rw [kept_deliver]
  cases keep (p.events ++ [event]) with
  | true => rfl
  | false => rfl

/-- Each turn but the last takes a byte at least, an error too. -/
theorem parseLoop_isSome (h : p.buffer.length < fuel) : (p.parseLoop keep fuel).isSome := by
  induction fuel generalizing p with
  | zero => exact absurd h (Nat.not_lt_zero _)
  | succ fuel ih =>
    cases hfront : front p.state p.buffer with
    | none =>
      rw [parseLoop_none hfront]
      rfl
    | some out =>
      obtain ⟨event, n⟩ := out
      rw [parseLoop_some hfront]
      split_ifs with hkeep
      · have hpos := front_pos hfront
        have hle := front_le hfront
        apply ih
        rw [buffer_deliver hkeep, List.length_drop]
        omega
      · rfl

/-- **`parse_buffer` returns.** -/
theorem parseBuffer_isSome (keep) (p : FlvParse) : (p.parseBuffer keep).isSome := by
  rw [parseBuffer, Option.isSome_map]
  exact parseLoop_isSome (Nat.lt_succ_self _)

end Loop

end FlvParse

end Neoip
