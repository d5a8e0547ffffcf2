/-
Neoip/FlvParse.lean

How the bytes of a flash video are cut does not matter to `flv_parse_t`.

What a parser has done, without its buffer, is the state of a decoder
(`flvDecoder`), whose items are what is notified.  A run is a list of events:
bytes come, and the timer expires.  As long as nothing incomplete can fill the
buffer (`Fits`), the decoder comes to the same end from the whole stream, and,
in any state of any run, from the bytes which are in the buffer and those which
are to come (`Tracks`).

Main result: `parse_stream`.  Whatever the stream, its cut and the callback:
every call of `parse_buffer` returns; and what is notified and the length
parsed are those of the stream.
-/
import Neoip.Flv
import Neoip.Incremental

namespace Neoip

namespace FlvParse

/-! ### The stream -/

/-- The length of what begins here, as far as it can be told. -/
def itemLength : FlvParseState → Datum → ℕ
  | .tophd, _ => FlvTophd.totalLength
  | .tag, b => match FlvTaghd.unserial b with
      | .error _ => FlvTaghd.totalLength
      | .ok taghd => taghd.totalLen

/-- The state after an event. -/
def nextState (st : FlvParseState) (event : FlvParseEvent) : FlvParseState :=
  if event.isError then st else .tag

/-- The places of a stream where a top header or a tag begins, and what the stream is from there
on.  What is behind a header which cannot be read is tried as one. -/
inductive Begins (stream : Datum) : FlvParseState → Datum → Prop
  | start : Begins stream .tophd stream
  | next {st b event n} (h : Begins stream st b) (hfront : front st b = some (event, n)) :
      Begins stream (nextState st event) (b.drop n)

/-- The top header and the tags of the stream fit in a buffer of `maxlen` bytes, but for a part
of one at the end of the stream which itself does. -/
def Fits (maxlen : ℕ) (stream : Datum) : Prop :=
  ∀ st b, Begins stream st b → itemLength st b ≤ maxlen ∨ b.length ≤ maxlen

/-- What is waited for is longer than what there is. -/
theorem length_lt_itemLength {st : FlvParseState} {b : Datum} (h : front st b = none)
    (c : Datum) : b.length < itemLength st (b ++ c) := by
  cases st with
  | tophd =>
    refine Nat.lt_of_not_le fun hlen => ?_
    rw [front_tophd hlen] at h
    cases hhd : FlvTophd.unserial b with
    | error e => simp [hhd] at h
    | ok tophd => simp [hhd] at h
  | tag =>
    by_cases hlen : FlvTaghd.totalLength ≤ b.length
    · obtain ⟨taghd, hhd⟩ := FlvTaghd.exists_unserial hlen
      rw [front_tag hlen hhd] at h
      rw [itemLength, FlvTaghd.unserial_append hlen, hhd]
      split_ifs at h with hwait
      exact hwait
    · have hshort : b.length < FlvTaghd.totalLength := Nat.lt_of_not_le hlen
      rw [itemLength]
      cases FlvTaghd.unserial (b ++ c) with
      | error e => exact hshort
      | ok taghd => exact Nat.lt_of_lt_of_le hshort (Nat.le_add_right _ _)

/-- What is waited for fits. -/
theorem Fits.length_le {maxlen : ℕ} {stream b c : Datum} {st : FlvParseState}
    (h : Fits maxlen stream) (hbegins : Begins stream st (b ++ c)) (hwait : front st b = none) :
    b.length ≤ maxlen := by
  have hlt := length_lt_itemLength hwait c
  rcases h st (b ++ c) hbegins with hitem | hrest
  · exact Nat.le_of_lt (Nat.lt_of_lt_of_le hlt hitem)
  · rw [List.length_append] at hrest
    exact Nat.le_trans (Nat.le_add_right _ _) hrest

theorem Begins.length_le {stream b : Datum} {st : FlvParseState} (h : Begins stream st b) :
    b.length ≤ stream.length := by
  induction h with
  | start => exact Nat.le_refl _
  | next h hfront ih =>
    rw [List.length_drop]
    exact (Nat.sub_le _ _).trans ih

/-- A short stream fits, whatever it is. -/
theorem fits_of_length_le {maxlen : ℕ} {stream : Datum} (h : stream.length ≤ maxlen) :
    Fits maxlen stream :=
  fun _ _ hbegins => .inr (hbegins.length_le.trans h)

/-! ### The decoder -/

/-- What a parser has done. -/
structure Core where
  state : FlvParseState
  parsed_length : ℕ
  events : List FlvParseEvent
  kept : Bool
deriving DecidableEq, Repr

def core (p : FlvParse) : Core := ⟨p.state, p.parsed_length, p.events, p.kept⟩

/-- What a parser has done after one more event. -/
def Core.deliver (keep : List FlvParseEvent → Bool) (s : Core) (event : FlvParseEvent) : Core :=
  if keep (s.events ++ [event]) then
    ⟨nextState s.state event, s.parsed_length + event.byteLength, s.events ++ [event], true⟩
  else { s with events := s.events ++ [event], kept := false }

theorem core_deliver {keep : List FlvParseEvent → Bool} {p : FlvParse} {event : FlvParseEvent}
    {n : ℕ} (h : front p.state p.buffer = some (event, n)) :
    core (p.deliver keep event n) = (core p).deliver keep event := by
  have hevents : (core p).events = p.events := rfl
  cases herror : event.isError with
  | true =>
    have hlength : event.byteLength = 0 := by
      cases event with
      | error reason => rfl
      | tophd tophd => simp [FlvParseEvent.isError] at herror
      | tag taghd tagdata => simp [FlvParseEvent.isError] at herror
    rw [Core.deliver, hevents, nextState, hlength, FlvParse.deliver, herror]
    cases hkeep : keep (p.events ++ [event]) <;> simp [core, notifyCallback, hkeep]
  | false =>
    rw [Core.deliver, hevents, nextState, front_byteLength h herror, deliver_item keep herror]
    cases hkeep : keep (p.events ++ [event]) <;> simp [core, notifyCallback, hkeep, herror]

/-- What is notified of a stream, as long as the callback keeps the parser. -/
def flvDecoder (keep : List FlvParseEvent → Bool) : Decoder Core UInt8 Empty where
  next s b := if !s.kept then .wait else
    match front s.state b with
    | none => .wait
    | some (event, n) => .item (s.deliver keep event) n
  item_pos := by
    intro s b s' n h
    split_ifs at h
    cases hfront : front s.state b with
    | none => simp [hfront] at h
    | some out =>
      simp only [hfront, Verdict.item.injEq] at h
      exact h.2 ▸ front_pos hfront
  item_le := by
    intro s b s' n h
    split_ifs at h
    cases hfront : front s.state b with
    | none => simp [hfront] at h
    | some out =>
      simp only [hfront, Verdict.item.injEq] at h
      exact h.2 ▸ front_le hfront
  item_append := by
    intro s b s' n c h
    split_ifs at h ⊢
    cases hfront : front s.state b with
    | none => simp [hfront] at h
    | some out =>
      rw [front_append c hfront]
      simpa [hfront] using h
  fault_append := nofun

section Decoder

variable {keep : List FlvParseEvent → Bool} {s : Core} {b : Datum} {event : FlvParseEvent} {n : ℕ}

theorem drain_dead (h : s.kept = false) : (flvDecoder keep).drain s b = (s, b) :=
  Decoder.drain_wait (by simp [flvDecoder, h])

theorem drain_none (h : front s.state b = none) : (flvDecoder keep).drain s b = (s, b) :=
  Decoder.drain_wait (by simp [flvDecoder, h])

theorem drain_some (hkept : s.kept = true) (h : front s.state b = some (event, n)) :
    (flvDecoder keep).drain s b = (flvDecoder keep).drain (s.deliver keep event) (b.drop n) :=
  Decoder.drain_item (by simp [flvDecoder, hkept, h])

end Decoder

/-! ### Runs -/

/-- What happens to a parser: bytes come, and the timer expires. -/
inductive Ev
  | data (new_data : Datum)
  | expire

/-- The bytes which come. -/
def bytes : List Ev → Datum
  | [] => []
  | .data new_data :: evs => new_data ++ bytes evs
  | .expire :: evs => bytes evs

-- The callback, and how large the buffer may be.
variable (keep : List FlvParseEvent → Bool) (maxlen : ℕ)

/-- Nothing happens to a parser which was not kept; a timer expires when it was started, and
calls `parse_buffer`.  `none` is a call which does not return. -/
def step (p : FlvParse) : Ev → Option FlvParse
  | .data new_data => some (if p.kept then p.notifyData new_data else p)
  | .expire =>
    if p.kept && p.zerotimer then parseBuffer keep { p with zerotimer := false } else some p

/-- A parser which is made, and what happens to it. -/
def run (evs : List Ev) : Option FlvParse := evs.foldlM (step keep) (start maxlen)

/-- A call of `parse_buffer` is due. -/
def Due (p : FlvParse) : Prop := p.kept = true ∧ p.zerotimer = true

def totalLength (events : List FlvParseEvent) : ℕ := (events.map FlvParseEvent.byteLength).sum

variable {keep maxlen}

theorem step_isSome (p : FlvParse) (ev : Ev) : (step keep p ev).isSome := by
  cases ev with
  | data new_data => rfl
  | expire =>
    rw [step]
    split_ifs
    · exact parseBuffer_isSome keep _
    · rfl

theorem foldlM_isSome (evs : List Ev) (p : FlvParse) : (evs.foldlM (step keep) p).isSome := by
  induction evs generalizing p with
  | nil => rfl
  | cons ev evs ih =>
    have hsome : (step keep p ev).isSome := step_isSome p ev
    obtain ⟨q, hq⟩ := Option.isSome_iff_exists.1 hsome
    rw [List.foldlM_cons, hq]
    exact ih q

/-! ### A run and its stream -/

/-- The parser, and the bytes which are still to come, are in the middle of the stream. -/
structure Tracks (keep : List FlvParseEvent → Bool) (maxlen : ℕ) (stream : Datum) (p : FlvParse)
    (future : Datum) : Prop where
  maxlen_eq : p.buffer_maxlen = maxlen
  begins : p.kept = true → Begins stream p.state (p.buffer ++ future)
  core_eq : ((flvDecoder keep).drain (core (start maxlen)) stream).1
    = ((flvDecoder keep).drain (core p) (p.buffer ++ future)).1
  length_eq : p.kept = true → p.parsed_length = totalLength p.events

/-- When no call is due there is nothing to notify. -/
def Quiet (p : FlvParse) : Prop := ¬ Due p → p.kept = true → front p.state p.buffer = none

section Tracks

variable {stream future : Datum} {p p' q : FlvParse} {fuel n : ℕ} {event : FlvParseEvent}
  {ev : Ev} {evs : List Ev}

theorem Tracks.start (keep : List FlvParseEvent → Bool) (maxlen : ℕ) (stream : Datum) :
    Tracks keep maxlen stream (start maxlen) stream :=
  ⟨rfl, fun _ => .start, rfl, fun _ => rfl⟩

theorem totalLength_append (events : List FlvParseEvent) (event : FlvParseEvent) :
    totalLength (events ++ [event]) = totalLength events + event.byteLength := by
  simp [totalLength]

/-- **One turn** of the loop. -/
theorem Tracks.deliver (h : Tracks keep maxlen stream p future) (hkept : p.kept = true)
    (hfront : front p.state p.buffer = some (event, n)) :
    Tracks keep maxlen stream (p.deliver keep event n) future := by
  have happend := front_append future hfront
  have hdrop : (p.buffer ++ future).drop n = p.buffer.drop n ++ future :=
    List.drop_append_of_le_length (front_le hfront)
  have hcore : core (p.deliver keep event n) = (core p).deliver keep event := core_deliver hfront
  have hlong : ((flvDecoder keep).drain (core (FlvParse.start maxlen)) stream).1
      = ((flvDecoder keep).drain ((core p).deliver keep event) (p.buffer.drop n ++ future)).1 := by
    rw [h.core_eq, drain_some (s := core p) hkept happend, hdrop]
  cases hkeep : keep (p.events ++ [event]) with
  | true =>
    have hstate : (p.deliver keep event n).state = nextState p.state event := by
      have := congrArg Core.state hcore
      rwa [Core.deliver, if_pos (show keep ((core p).events ++ [event]) = true from hkeep)] at this
    have hlength : (p.deliver keep event n).parsed_length = p.parsed_length + event.byteLength := by
      have := congrArg Core.parsed_length hcore
      rwa [Core.deliver, if_pos (show keep ((core p).events ++ [event]) = true from hkeep)] at this
    refine ⟨maxlen_deliver.trans h.maxlen_eq, fun _ => ?_, ?_, fun _ => ?_⟩
    · have hnext := (h.begins hkept).next happend
      rwa [hdrop, ← hstate, ← buffer_deliver hkeep] at hnext
    · rw [hlong, hcore, buffer_deliver hkeep]
    · rw [hlength, events_deliver, totalLength_append, h.length_eq hkept]
  | false =>
    have hdead : (p.deliver keep event n).kept = false := kept_deliver.trans hkeep
    have hnot : ¬ (p.deliver keep event n).kept = true := by simp [hdead]
    refine ⟨maxlen_deliver.trans h.maxlen_eq, fun hk => absurd hk hnot, ?_,
      fun hk => absurd hk hnot⟩
    have hstop : ((core p).deliver keep event).kept = false := by
      rw [← hcore]
      exact hdead
    rw [hlong, hcore, drain_dead hstop, drain_dead hstop]

/-- **The loop** stays with the stream, and stops where there is nothing to notify. -/
theorem Tracks.parseLoop (h : Tracks keep maxlen stream p future) (hkept : p.kept = true)
    (hp : p.parseLoop keep fuel = some p') :
    Tracks keep maxlen stream p' future ∧ (p'.kept = true → front p'.state p'.buffer = none) := by
  induction fuel generalizing p with
  | zero => simp [FlvParse.parseLoop] at hp
  | succ fuel ih =>
    cases hfront : front p.state p.buffer with
    | none =>
      rw [parseLoop_none hfront] at hp
      obtain rfl := Option.some.inj hp
      exact ⟨h, fun _ => hfront⟩
    | some out =>
      obtain ⟨event, n⟩ := out
      rw [parseLoop_some hfront] at hp
      split_ifs at hp with hkeep
      · exact ih (h.deliver hkept hfront) (kept_deliver.trans hkeep) hp
      · obtain rfl := Option.some.inj hp
        exact ⟨h.deliver hkept hfront, fun hk => absurd (kept_deliver.symm.trans hk) hkeep⟩

/-- The buffer is never too large when the stream fits. -/
theorem Tracks.checkMaxlen (h : Tracks keep maxlen stream p future) (hfits : Fits maxlen stream)
    (hwait : p.kept = true → front p.state p.buffer = none) : p.checkMaxlen keep = p := by
  rw [FlvParse.checkMaxlen, if_neg]
  rintro ⟨hkept, hlt⟩
  have hle := hfits.length_le (h.begins hkept) (hwait hkept)
  rw [h.maxlen_eq] at hlt
  exact absurd hle (Nat.not_le.2 hlt)

/-- **One event.** -/
theorem Tracks.step (h : Tracks keep maxlen stream p (bytes (ev :: evs)))
    (hquiet : Quiet p) (hfits : Fits maxlen stream) (hstep : step keep p ev = some q) :
    Tracks keep maxlen stream q (bytes evs) ∧ Quiet q := by
  cases ev with
  | data new_data =>
    obtain rfl := Option.some.inj hstep
    cases hkept : p.kept with
    | true =>
      have hassoc : p.buffer ++ bytes (.data new_data :: evs)
          = (p.buffer ++ new_data) ++ bytes evs := (List.append_assoc _ _ _).symm
      have hbegins := h.begins hkept
      have hcore := h.core_eq
      rw [hassoc] at hbegins hcore
      exact ⟨⟨h.maxlen_eq, fun _ => hbegins, hcore, h.length_eq⟩,
        fun hdue => absurd ⟨hkept, rfl⟩ hdue⟩
    | false =>
      have hnot : ¬ p.kept = true := by simp [hkept]
      refine ⟨⟨h.maxlen_eq, fun hk => absurd hk hnot, ?_, fun hk => absurd hk hnot⟩, hquiet⟩
      show _ = ((flvDecoder keep).drain (core p) (p.buffer ++ bytes evs)).1
      rw [h.core_eq, drain_dead (s := core p) hkept, drain_dead (s := core p) hkept]
  | expire =>
    rw [FlvParse.step] at hstep
    split_ifs at hstep with hdue
    · have hkept : p.kept = true := (Bool.and_eq_true_iff.1 hdue).1
      obtain ⟨r, hloop, rfl⟩ := Option.map_eq_some_iff.1 hstep
      have hidle : Tracks keep maxlen stream { p with zerotimer := false } (bytes evs) :=
        ⟨h.maxlen_eq, h.begins, h.core_eq, h.length_eq⟩
      obtain ⟨hr, hwait⟩ := hidle.parseLoop hkept hloop
      rw [hr.checkMaxlen hfits hwait]
      exact ⟨hr, fun _ => hwait⟩
    · obtain rfl := Option.some.inj hstep
      exact ⟨h, hquiet⟩

/-- **Every run** over a stream which fits. -/
theorem Tracks.run (h : Tracks keep maxlen stream p (bytes evs)) (hquiet : Quiet p)
    (hfits : Fits maxlen stream) (hrun : evs.foldlM (FlvParse.step keep) p = some q) :
    Tracks keep maxlen stream q [] ∧ Quiet q := by
  induction evs generalizing p with
  | nil =>
    obtain rfl := Option.some.inj hrun
    exact ⟨h, hquiet⟩
  | cons ev evs ih =>
    rw [List.foldlM_cons] at hrun
    obtain ⟨r, hstep, hrest⟩ := Option.bind_eq_some_iff.1 hrun
    obtain ⟨hr, hquiet'⟩ := h.step hquiet hfits hstep
    exact ih hr hquiet' hrest

/-- What a parser has done when no call is due is what is to be done with the stream. -/
theorem Tracks.core_of_not_due (h : Tracks keep maxlen stream p []) (hquiet : Quiet p)
    (hdue : ¬ Due p) :
    core p = ((flvDecoder keep).drain (core (FlvParse.start maxlen)) stream).1 := by
  rw [h.core_eq, List.append_nil]
  cases hkept : p.kept with
  | true => rw [drain_none (s := core p) (hquiet hdue hkept)]
  | false => rw [drain_dead (s := core p) hkept]

end Tracks

/-! ### However the stream is cut -/

theorem tracks_of_run {evs : List Ev} {p : FlvParse} (hfits : Fits maxlen (bytes evs))
    (hrun : run keep maxlen evs = some p) : Tracks keep maxlen (bytes evs) p [] ∧ Quiet p :=
  (Tracks.start keep maxlen (bytes evs)).run (fun _ _ => front_short (Nat.succ_pos 8)) hfits hrun

/-- **A stream in any pieces**, and any callback: every call of `parse_buffer` returns; and when
the header and the tags fit in the buffer, what was notified once no call is due, whether the
parser was kept, and the length parsed, which is that of what was notified, depend on the bytes
only: they are what the decoder makes of them. -/
theorem parse_stream (keep : List FlvParseEvent → Bool) (maxlen : ℕ) :
    (∀ p : FlvParse, (p.parseBuffer keep).isSome) ∧ (∀ evs, (run keep maxlen evs).isSome)
    ∧ ∀ evs evs', bytes evs = bytes evs' → Fits maxlen (bytes evs) →
        ∀ p p', run keep maxlen evs = some p → run keep maxlen evs' = some p' →
          ¬ Due p → ¬ Due p' → p.events = p'.events ∧ p.kept = p'.kept
            ∧ p.parsed_length = p'.parsed_length
            ∧ (p.kept = true → p.parsed_length = totalLength p.events)
            ∧ core p = ((flvDecoder keep).drain (core (start maxlen)) (bytes evs)).1 := by
  refine ⟨parseBuffer_isSome keep, fun evs => foldlM_isSome evs _, ?_⟩
  intro evs evs' hbytes hfits p p' hrun hrun' hdue hdue'
  obtain ⟨h, hquiet⟩ := tracks_of_run hfits hrun
  obtain ⟨h', hquiet'⟩ := tracks_of_run (hbytes ▸ hfits) hrun'
  have hcore : core p = core p' := by
    rw [h.core_of_not_due hquiet hdue, h'.core_of_not_due hquiet' hdue', hbytes]
  exact ⟨congrArg Core.events hcore, congrArg Core.kept hcore, congrArg Core.parsed_length hcore,
    h.length_eq, h.core_of_not_due hquiet hdue⟩

/-- A top header and a tag of one byte. -/
def oneTag : Datum :=
  [0x46, 0x4C, 0x56, 1, 5, 0, 0, 0, 9, 0, 0, 0, 0, 8, 0, 0, 1, 0, 0, 40, 0, 0, 0, 0, 0xAF]

/-- In one piece, and cut in both. -/
theorem parse_stream_oneTag : ∃ p p',
    run (fun _ => true) bufferMaxlen [.data oneTag, .expire] = some p
      ∧ run (fun _ => true) bufferMaxlen [.data (oneTag.take 4), .expire,
          .data ((oneTag.drop 4).take 16), .expire, .data (oneTag.drop 20), .expire] = some p'
      ∧ p.events = [.tophd ⟨1, 5⟩, .tag ⟨0, 8, 1, 40, 0⟩ [0xAF]]
      ∧ p.events = p'.events ∧ p.kept = p'.kept ∧ p.parsed_length = p'.parsed_length
      ∧ (p.kept = true → p.parsed_length = totalLength p.events)
      ∧ core p = ((flvDecoder fun _ => true).drain (core (start bufferMaxlen))
          (bytes [.data oneTag, .expire])).1 := by
  have hdue : ¬ Due (⟨.tag, 25, [], bufferMaxlen, false,
      [.tophd ⟨1, 5⟩, .tag ⟨0, 8, 1, 40, 0⟩ [0xAF]], true⟩ : FlvParse) := fun h => nomatch h.2
  have hfits : Fits bufferMaxlen (bytes [.data oneTag, .expire]) :=
    fits_of_length_le (by decide)
  exact ⟨_, _, rfl, rfl, rfl, (parse_stream (fun _ => true) bufferMaxlen).2.2 _ _ rfl hfits _ _ rfl rfl
    hdue hdue⟩

end FlvParse

end Neoip
