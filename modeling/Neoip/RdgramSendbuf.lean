/-
Neoip/RdgramSendbuf.lean

The send buffer of `rdgram_t`, with its `MAYSEND` events.

The used length grows in the constructor of a `sendbuf_pkt_t` and shrinks in its
destructor.  Each compares the free length with `maysend_threshold` before and after,
and appends the zerotimer when the threshold is crossed; what is reported is only
chosen when the zerotimer expires.

The numbers in the buffer are taken to be within half of the range, where the
circular order of the `std::map` is one and finds by equality.

`pkt_from_upper` puts the header in front of the packet of the caller before it
checks that the packet fits, and leaves it there when it refuses the packet.  It does
not check either that the next sequence number is free again.

Main results: `RdgramSendbuf.always_sendbuf_iff`, and `RdgramSendbuf.always_informed`,
that no crossing of the threshold is missed.
-/
import Neoip.Rdgram
import Neoip.Run

namespace Neoip

/-- The events which `zerotimer_maysend` reports. -/
inductive MaysendEvent where
  | MAYSEND_ON
  | MAYSEND_OFF
deriving DecidableEq, Repr

/-- The fields of `rdgram_t` for the events: the threshold, how many times the
zerotimer is appended, and the last event which was reported. -/
structure RdgramSendbuf where
  rdgram : Rdgram
  maysend_threshold : ℕ
  zerotimer_maysend : ℕ
  reported : Option MaysendEvent

namespace RdgramSendbuf

/-! ### The functions of the source -/

/-- `std::numeric_limits<size_t>::max()`. -/
def sizeMax : ℕ := 18446744073709551615

/-- The difference of two numbers of type `size_t`. -/
def sizeSub (a b : ℕ) : ℕ := if b ≤ a then a - b else sizeMax - (b - a - 1)

def sendbufIsLimited (s : RdgramSendbuf) : Bool := s.rdgram.sendbuf_max_len ≠ 0

def sendbufFreeLen (s : RdgramSendbuf) : ℕ :=
  if s.sendbufIsLimited then sizeSub s.rdgram.sendbuf_max_len s.rdgram.sendbuf_used_len
  else sizeMax

def maysendIsSet (s : RdgramSendbuf) : Bool := s.maysend_threshold ≠ 0 && s.sendbufIsLimited

/-- `zerotimer_maysend.append`. -/
def append (s : RdgramSendbuf) : RdgramSendbuf :=
  { s with zerotimer_maysend := s.zerotimer_maysend + 1 }

/-- Both outcomes of the comparison with the free length append the zerotimer. -/
def maysendSetThreshold (len : ℕ) (s : RdgramSendbuf) : RdgramSendbuf :=
  let s := { s with maysend_threshold := len }
  if s.maysendIsSet then s.append else s

/-- The end of `sendbuf_add_pkt`, once the used length is updated. -/
def addMaysend (pkt_len : ℕ) (s : RdgramSendbuf) : RdgramSendbuf :=
  -- below the threshold now, and not before the packet was added
  if s.maysendIsSet ∧ s.sendbufFreeLen < s.maysend_threshold ∧
      s.sendbufFreeLen + pkt_len ≥ s.maysend_threshold then s.append
  else s

/-- The end of `sendbuf_del_pkt`, once the used length is updated. -/
def delMaysend (pkt_len : ℕ) (s : RdgramSendbuf) : RdgramSendbuf :=
  -- at the threshold or above now, and not before the packet was deleted
  if s.maysendIsSet ∧ s.sendbufFreeLen ≥ s.maysend_threshold ∧
      sizeSub s.sendbufFreeLen pkt_len < s.maysend_threshold then s.append
  else s

/-- `zerotimer_maysend_process`. -/
def zerotimerMaysend (s : RdgramSendbuf) : Option MaysendEvent :=
  if ¬s.maysendIsSet then none
  else if s.sendbufFreeLen < s.maysend_threshold then some .MAYSEND_OFF
  else some .MAYSEND_ON

def pktFromUpper (pkt : Datum) (s : RdgramSendbuf) : RdgramErr × Datum × RdgramSendbuf :=
  let (err, pkt, rdgram) := s.rdgram.pktFromUpper pkt
  if err = .OK then (err, pkt, addMaysend pkt.length { s with rdgram := rdgram })
  else (err, pkt, { s with rdgram := rdgram })

/-- The packet which a packet from below acknowledges. -/
def acked (pkt : Datum) (s : RdgramSendbuf) : Option Datum := do
  let seqnb ← Rdgram.toAck pkt
  Omap.find seqnb s.rdgram.sendbuf_pkt_db

def pktFromLower (should_acked : Bool) (pkt : Datum) (s : RdgramSendbuf) : RdgramSendbuf :=
  let rdgram := (s.rdgram.pktFromLower (fun _ _ => should_acked) pkt).rdgram
  match s.acked pkt with
  | some sendbuf_pkt => delMaysend sendbuf_pkt.length { s with rdgram := rdgram }
  | none => { s with rdgram := rdgram }

/-! ### Runs -/

/-- The packets and the timers. -/
inductive Event where
  | submit (pkt : Datum)
  | fromLower (should_acked : Bool) (pkt : Datum)
  | rxmit (seqnb : Wai32)
  | setThreshold (len : ℕ)
  | maysendExpire
  | seqnb2ackExpire
deriving DecidableEq, Repr

def step (s : RdgramSendbuf) : Event → RdgramSendbuf
  | .submit pkt => (s.pktFromUpper pkt).2.2
  | .fromLower should_acked pkt => s.pktFromLower should_acked pkt
  | .rxmit _ => s
  | .setThreshold len => s.maysendSetThreshold len
  | .maysendExpire =>
    if s.zerotimer_maysend = 0 then s
    else
      { s with
        zerotimer_maysend := s.zerotimer_maysend - 1
        reported := s.zerotimerMaysend.or s.reported }
  | .seqnb2ackExpire => { s with rdgram := s.rdgram.zerotimerSeqnb2ack.2 }

def start (sendbuf_max_len : ℕ) : RdgramSendbuf where
  rdgram := { Rdgram.ctor with sendbuf_max_len := sendbuf_max_len }
  maysend_threshold := 0
  zerotimer_maysend := 0
  reported := none

/-! ### What is expected of it -/

/-- The event which goes with the free length. -/
def status (s : RdgramSendbuf) : MaysendEvent :=
  if s.sendbufFreeLen < s.maysend_threshold then .MAYSEND_OFF else .MAYSEND_ON

/-- The used length is that of the unacknowledged packets, and within the maximum. -/
structure Accounted (s : RdgramSendbuf) : Prop where
  used : s.rdgram.sendbuf_used_len = (s.rdgram.sendbuf_pkt_db.map fun x => x.2.length).sum
  le_max : s.sendbufIsLimited = true → s.rdgram.sendbuf_used_len ≤ s.rdgram.sendbuf_max_len

/-- Where the events are wanted, the last one reported goes with the free length, unless
another one is to come. -/
def Informed (s : RdgramSendbuf) : Prop :=
  s.maysendIsSet = true → s.zerotimer_maysend = 0 → s.reported = some s.status

/-- A refused packet comes back as it was, and nothing has changed; an event which is
reported goes with the free length. -/
def StepOk (s : RdgramSendbuf) : Event → Prop
  | .submit pkt => (s.pktFromUpper pkt).1 = .SENDBUF_FULL →
      (s.pktFromUpper pkt).2.1 = pkt ∧ s.step (.submit pkt) = s
  | .maysendExpire => ∀ event, s.zerotimerMaysend = some event →
      (event = .MAYSEND_OFF ↔ s.sendbufFreeLen < s.maysend_threshold)
  | _ => True

/-- The packet fits with its header. -/
def Fits (pkt : Datum) (s : RdgramSendbuf) : Prop :=
  s.sendbufIsLimited = true → s.rdgram.sendbuf_used_len
    + (Rdgram.buildData s.rdgram.next_xmit_seqnb pkt).length ≤ s.rdgram.sendbuf_max_len

/-- A packet which is submitted fits with its header, and the next number is not in use. -/
def EventOk (s : RdgramSendbuf) : Event → Prop
  | .submit pkt => Fits pkt s ∧
      Omap.find s.rdgram.next_xmit_seqnb s.rdgram.sendbuf_pkt_db = none
  | _ => True

/-! ### Lengths -/

variable {s : RdgramSendbuf} {pkt : Datum} {len : ℕ}

theorem length_buildData (seqnb : Wai32) (pkt : Datum) :
    (Rdgram.buildData seqnb pkt).length = pkt.length + 5 := by
  rw [Rdgram.buildData, List.length_cons, List.length_append, length_writeUint32]
  omega

/-- Where something has been appended, an event is to come. -/
theorem informed_append : Informed s.append := fun _ h => absurd h (Nat.succ_ne_zero _)

theorem addMaysend_rdgram : (addMaysend len s).rdgram = s.rdgram := by
  rw [addMaysend]
  split_ifs <;> rfl

theorem delMaysend_rdgram : (delMaysend len s).rdgram = s.rdgram := by
  rw [delMaysend]
  split_ifs <;> rfl

theorem maysendSetThreshold_rdgram : (s.maysendSetThreshold len).rdgram = s.rdgram := by
  simp only [maysendSetThreshold]
  split_ifs <;> rfl

theorem Accounted.congr {s' : RdgramSendbuf} (heq : s'.rdgram = s.rdgram) :
    Accounted s' ↔ Accounted s := by
  have hlimited : s'.sendbufIsLimited = s.sendbufIsLimited := by
    rw [sendbufIsLimited, heq, sendbufIsLimited]
  constructor
  · rintro ⟨hused, hle⟩
    rw [heq] at hused hle
    rw [hlimited] at hle
    exact ⟨hused, hle⟩
  · rintro ⟨hused, hle⟩
    rw [← heq] at hused hle
    rw [← hlimited] at hle
    exact ⟨hused, hle⟩

theorem freeLen_add (hlimited : s.sendbufIsLimited = true)
    (hle : s.rdgram.sendbuf_used_len ≤ s.rdgram.sendbuf_max_len) :
    s.sendbufFreeLen + s.rdgram.sendbuf_used_len = s.rdgram.sendbuf_max_len := by
  rw [sendbufFreeLen, if_pos hlimited, sizeSub, if_pos hle]
  omega

theorem limited_of_set (h : s.maysendIsSet = true) : s.sendbufIsLimited = true := by
  rw [maysendIsSet, Bool.and_eq_true] at h
  exact h.2

/-! ### Crossing the threshold

A packet which is added or deleted without the zerotimer leaves the free length on
its side of the threshold. -/

variable {r : Rdgram}

theorem set_congr (hmax : r.sendbuf_max_len = s.rdgram.sendbuf_max_len) :
    ({ s with rdgram := r } : RdgramSendbuf).maysendIsSet = s.maysendIsSet := by
  rw [maysendIsSet, maysendIsSet, sendbufIsLimited, sendbufIsLimited, hmax]

/-- The report stays right while the free length stays on its side. -/
theorem Informed.congr (hmax : r.sendbuf_max_len = s.rdgram.sendbuf_max_len)
    (hside : s.maysendIsSet = true → (({ s with rdgram := r } : RdgramSendbuf).sendbufFreeLen
      < s.maysend_threshold ↔ s.sendbufFreeLen < s.maysend_threshold))
    (h : Informed s) : Informed { s with rdgram := r } := by
  intro hset hzero
  have hset' : s.maysendIsSet = true := by rwa [set_congr hmax] at hset
  have hstatus : ({ s with rdgram := r } : RdgramSendbuf).status = s.status :=
    if_congr (hside hset') rfl rfl
  show s.reported = some _
  rw [hstatus]
  exact h hset' hzero

theorem informed_add (hmax : r.sendbuf_max_len = s.rdgram.sendbuf_max_len)
    (hused : r.sendbuf_used_len = s.rdgram.sendbuf_used_len + len)
    (hle : s.sendbufIsLimited = true → r.sendbuf_used_len ≤ r.sendbuf_max_len)
    (h : Informed s) : Informed (addMaysend len { s with rdgram := r }) := by
  rw [addMaysend]
  split_ifs with hcross
  · exact informed_append
  apply h.congr hmax
  intro hset'
  have hset : ({ s with rdgram := r } : RdgramSendbuf).maysendIsSet = true := by
    rwa [set_congr hmax]
  have hlimited := limited_of_set hset'
  have hle' := hle hlimited
  have hfree := freeLen_add hlimited (by omega)
  have hfree' := freeLen_add (limited_of_set hset) hle'
  have hcross' := not_and.1 hcross hset
  generalize ({ s with rdgram := r } : RdgramSendbuf).sendbufFreeLen = free at hfree' hcross' ⊢
  dsimp only at hfree' hcross'
  omega

theorem informed_del (hmax : r.sendbuf_max_len = s.rdgram.sendbuf_max_len)
    (hused : s.rdgram.sendbuf_used_len = r.sendbuf_used_len + len)
    (hle : s.sendbufIsLimited = true → s.rdgram.sendbuf_used_len ≤ s.rdgram.sendbuf_max_len)
    (h : Informed s) : Informed (delMaysend len { s with rdgram := r }) := by
  rw [delMaysend]
  split_ifs with hcross
  · exact informed_append
  apply h.congr hmax
  intro hset'
  have hset : ({ s with rdgram := r } : RdgramSendbuf).maysendIsSet = true := by
    rwa [set_congr hmax]
  have hlimited := limited_of_set hset'
  have hle' := hle hlimited
  have hfree := freeLen_add hlimited hle'
  have hfree' := freeLen_add (limited_of_set hset) (by dsimp only; omega)
  have hcross' := not_and.1 hcross hset
  generalize ({ s with rdgram := r } : RdgramSendbuf).sendbufFreeLen = free at hfree' hcross' ⊢
  dsimp only at hfree' hcross'
  rw [sizeSub, if_pos (by omega)] at hcross'
  omega

/-! ### What a packet from below does -/

variable {seqnb : Wai32} {should_acked : Bool} {sendbuf_pkt : Datum}

/-- Unless it acknowledges a packet of the buffer, only what is to be acknowledged changes. -/
theorem pktFromLower_of_acked_none (should_acked : Bool) (h : s.acked pkt = none) :
    ∃ seqnb2ack_list zerotimer_seqnb2ack, s.pktFromLower should_acked pkt = { s with
      rdgram := { s.rdgram with
        seqnb2ack_list := seqnb2ack_list, zerotimer_seqnb2ack := zerotimer_seqnb2ack } } := by
  rw [pktFromLower, h]
  dsimp only
  cases hdata : Rdgram.toData pkt with
  | some x =>
    obtain ⟨seqnb, payload⟩ := x
    rw [Rdgram.pktFromLower_of_toData hdata]
    split_ifs
    · exact ⟨_, _, rfl⟩
    · exact ⟨_, _, rfl⟩
  | none =>
    cases hack : Rdgram.toAck pkt with
    | none =>
      rw [(Rdgram.pktFromLower_of_bogus _ _ hdata hack).2]
      exact ⟨_, _, rfl⟩
    | some seqnb =>
      have hfind : Omap.find seqnb s.rdgram.sendbuf_pkt_db = none := by
        rwa [acked, hack] at h
      rw [Rdgram.pktFromLower_of_toAck_none hack hfind]
      exact ⟨_, _, rfl⟩

theorem pktFromLower_of_acked_some (should_acked : Bool)
    (h : s.acked pkt = some sendbuf_pkt) :
    ∃ seqnb, Omap.find seqnb s.rdgram.sendbuf_pkt_db = some sendbuf_pkt ∧
      s.pktFromLower should_acked pkt = delMaysend sendbuf_pkt.length { s with
        rdgram := { s.rdgram with
          sendbuf_pkt_db := Omap.erase seqnb s.rdgram.sendbuf_pkt_db
          sendbuf_used_len := s.rdgram.sendbuf_used_len - sendbuf_pkt.length } } := by
  obtain ⟨seqnb, hack, hfind⟩ := Option.bind_eq_some_iff.1 h
  refine ⟨seqnb, hfind, ?_⟩
  rw [pktFromLower, h]
  dsimp only
  rw [Rdgram.pktFromLower_of_toAck_some hack hfind]

/-! ### What a packet from above does -/

/-- The header stays on a packet which is refused. -/
theorem pktFromUpper_of_not_fits (h : ¬Fits pkt s) : s.pktFromUpper pkt =
    (.SENDBUF_FULL, Rdgram.buildData s.rdgram.next_xmit_seqnb pkt, s) := by
  obtain ⟨hlimited, hlt⟩ := Classical.not_imp.1 h
  have hmax : s.rdgram.sendbuf_max_len ≠ 0 := of_decide_eq_true hlimited
  rw [pktFromUpper, Rdgram.pktFromUpper, if_pos ⟨hmax, Nat.not_le.1 hlt⟩]
  rfl

theorem pktFromUpper_of_fits (h : Fits pkt s) : s.pktFromUpper pkt =
    (.OK, Rdgram.buildData s.rdgram.next_xmit_seqnb pkt,
      addMaysend (Rdgram.buildData s.rdgram.next_xmit_seqnb pkt).length { s with
        rdgram := { s.rdgram with
          sendbuf_pkt_db := Omap.insert Wai.lt s.rdgram.next_xmit_seqnb
            (Rdgram.buildData s.rdgram.next_xmit_seqnb pkt) s.rdgram.sendbuf_pkt_db
          sendbuf_used_len := s.rdgram.sendbuf_used_len
            + (Rdgram.buildData s.rdgram.next_xmit_seqnb pkt).length
          next_xmit_seqnb := s.rdgram.next_xmit_seqnb + 1 } }) := by
  have hfull : ¬(s.rdgram.sendbuf_max_len ≠ 0 ∧ s.rdgram.sendbuf_max_len
      < s.rdgram.sendbuf_used_len + (Rdgram.buildData s.rdgram.next_xmit_seqnb pkt).length) :=
    fun ⟨hmax, hlt⟩ => Nat.not_le.2 hlt (h (decide_eq_true hmax))
  rw [pktFromUpper, Rdgram.pktFromUpper, if_neg hfull]
  rfl

/-- No packet comes back as it was when it is refused. -/
theorem submit_ok_iff : StepOk s (.submit pkt) ↔ Fits pkt s := by
  constructor
  · intro h
    by_contra hfits
    rw [StepOk, pktFromUpper_of_not_fits hfits] at h
    have hlength := congrArg List.length (h rfl).1
    rw [length_buildData] at hlength
    omega
  · intro h
    rw [StepOk, pktFromUpper_of_fits h]
    exact fun hfull => RdgramErr.noConfusion hfull

/-- A number which is in use again is counted twice. -/
theorem submit_accounted_iff (h : Accounted s) (hfits : Fits pkt s) :
    Accounted (s.step (.submit pkt)) ↔
      Omap.find s.rdgram.next_xmit_seqnb s.rdgram.sendbuf_pkt_db = none := by
  rw [step, pktFromUpper_of_fits hfits, Accounted.congr addMaysend_rdgram]
  constructor
  · rintro ⟨hused, -⟩
    cases hfind : Omap.find s.rdgram.next_xmit_seqnb s.rdgram.sendbuf_pkt_db with
    | none => rfl
    -- the packet which had the number stays, and the length is added all the same
    | some sendbuf_pkt =>
      dsimp only at hused
      rw [Omap.insert, hfind, h.used, length_buildData] at hused
      dsimp only at hused
      omega
  · intro hfind
    refine ⟨?_, hfits⟩
    dsimp only
    rw [Omap.insert_of_find hfind, Omap.sum_place, h.used, Nat.add_comm]

theorem pktFromLower_accounted (should_acked : Bool)
    (hkeyed : Omap.Keyed s.rdgram.sendbuf_pkt_db) (h : Accounted s) :
    Accounted (s.pktFromLower should_acked pkt) := by
  cases hacked : s.acked pkt with
  | none =>
    obtain ⟨list, flag, heq⟩ := pktFromLower_of_acked_none should_acked hacked
    rw [heq]
    exact ⟨h.used, h.le_max⟩
  | some sendbuf_pkt =>
    obtain ⟨seqnb, hfind, heq⟩ := pktFromLower_of_acked_some should_acked hacked
    have hsum := Omap.sum_erase hkeyed (Omap.mem_of_find hfind) fun x => x.2.length
    rw [← h.used] at hsum
    rw [heq, Accounted.congr delMaysend_rdgram]
    refine ⟨?_, fun hlimited => (Nat.sub_le _ _).trans (h.le_max hlimited)⟩
    dsimp only at hsum ⊢
    omega

/-- **One step**: the lengths stay accounted for, and what is expected of the step is met,
exactly where a packet which is submitted fits and gets a number of its own. -/
theorem step_accounted_iff (hkeyed : Omap.Keyed s.rdgram.sendbuf_pkt_db) (h : Accounted s)
    (e : Event) : Accounted (s.step e) ∧ StepOk s e ↔ EventOk s e := by
  cases e with
  | submit pkt =>
    rw [submit_ok_iff, EventOk, and_comm]
    exact and_congr_right (submit_accounted_iff h)
  | fromLower should_acked pkt =>
    exact iff_of_true ⟨pktFromLower_accounted should_acked hkeyed h, trivial⟩ trivial
  | rxmit seqnb => exact iff_of_true ⟨h, trivial⟩ trivial
  | setThreshold len =>
    exact iff_of_true ⟨(Accounted.congr maysendSetThreshold_rdgram).2 h, trivial⟩ trivial
  | maysendExpire =>
    refine iff_of_true ⟨?_, ?_⟩ trivial
    · rw [step]
      split_ifs
      · exact h
      · exact ⟨h.used, h.le_max⟩
    · intro event hevent
      rw [zerotimerMaysend] at hevent
      split_ifs at hevent with hset hlt
      · rw [← Option.some.inj hevent]
        exact iff_of_true rfl hlt
      · rw [← Option.some.inj hevent]
        exact iff_of_false (fun hoff => MaysendEvent.noConfusion hoff) hlt
  | seqnb2ackExpire =>
    refine iff_of_true ⟨?_, trivial⟩ trivial
    rw [step, Rdgram.zerotimerSeqnb2ack]
    split_ifs
    · exact ⟨h.used, h.le_max⟩
    · exact h

/-! ### The numbers of the buffer -/

theorem step_keyed (h : Omap.Keyed s.rdgram.sendbuf_pkt_db) (e : Event) :
    Omap.Keyed (s.step e).rdgram.sendbuf_pkt_db := by
  cases e with
  | submit pkt =>
    rw [step]
    by_cases hfits : Fits pkt s
    · rw [pktFromUpper_of_fits hfits, addMaysend_rdgram]
      exact Omap.keyed_insert h
    · rw [pktFromUpper_of_not_fits hfits]
      exact h
  | fromLower should_acked pkt =>
    rw [step]
    cases hacked : s.acked pkt with
    | none =>
      obtain ⟨list, flag, heq⟩ := pktFromLower_of_acked_none should_acked hacked
      rw [heq]
      exact h
    | some sendbuf_pkt =>
      obtain ⟨seqnb, -, heq⟩ := pktFromLower_of_acked_some should_acked hacked
      rw [heq, delMaysend_rdgram]
      exact Omap.keyed_erase h
  | rxmit seqnb => exact h
  | setThreshold len =>
    rw [step, maysendSetThreshold_rdgram]
    exact h
  | maysendExpire =>
    rw [step]
    split_ifs
    · exact h
    · exact h
  | seqnb2ackExpire =>
    rw [step, Rdgram.zerotimerSeqnb2ack]
    split_ifs
    · exact h
    · exact h

theorem accounted_start (sendbuf_max_len : ℕ) : Accounted (start sendbuf_max_len) :=
  ⟨rfl, fun _ => Nat.zero_le _⟩

/-- **The send buffer**: the used length is always that of the unacknowledged packets, a
refused packet comes back as it was, and the events go with the free length, exactly in
the runs where no packet is refused and no number is given again too early. -/
theorem always_sendbuf_iff (sendbuf_max_len : ℕ) (evs : List Event) :
    Always step Accounted (start sendbuf_max_len) evs ∧
        Guarded step StepOk (start sendbuf_max_len) evs ↔
      Guarded step EventOk (start sendbuf_max_len) evs :=
  always_and_guarded_iff (fun _ e hkeyed _ _ => step_keyed hkeyed e)
    (fun _ e hkeyed h _ => step_accounted_iff hkeyed h e) (accounted_start sendbuf_max_len)
    List.nodup_nil always_true

/-- A buffer of ten bytes has no room for a packet of six bytes and its header. -/
theorem not_always_accounted :
    ¬(Always step Accounted (start 10) [.submit [1, 2, 3, 4, 5, 6]] ∧
      Guarded step StepOk (start 10) [.submit [1, 2, 3, 4, 5, 6]]) := by
  rintro ⟨-, hok, -⟩
  exact absurd (hok rfl).1 (by decide)

/-! ### The report -/

theorem zerotimerMaysend_of_set (h : s.maysendIsSet = true) :
    s.zerotimerMaysend = some s.status := by
  rw [zerotimerMaysend, if_neg (not_not.2 h), status]
  split_ifs <;> rfl

theorem pktFromLower_informed (should_acked : Bool)
    (hkeyed : Omap.Keyed s.rdgram.sendbuf_pkt_db) (h : Accounted s) (hinformed : Informed s) :
    Informed (s.pktFromLower should_acked pkt) := by
  cases hacked : s.acked pkt with
  | none =>
    obtain ⟨list, flag, heq⟩ := pktFromLower_of_acked_none should_acked hacked
    rw [heq]
    exact hinformed
  | some sendbuf_pkt =>
    obtain ⟨seqnb, hfind, heq⟩ := pktFromLower_of_acked_some should_acked hacked
    have hsum := Omap.sum_erase hkeyed (Omap.mem_of_find hfind) fun x => x.2.length
    rw [← h.used] at hsum
    rw [heq]
    refine informed_del ?_ ?_ h.le_max hinformed
    · rfl
    · dsimp only at hsum ⊢
      omega

theorem step_informed (hkeyed : Omap.Keyed s.rdgram.sendbuf_pkt_db) (h : Accounted s)
    (hinformed : Informed s) (e : Event) : Informed (s.step e) := by
  cases e with
  | submit pkt =>
    rw [step]
    by_cases hfits : Fits pkt s
    · rw [pktFromUpper_of_fits hfits]
      exact informed_add rfl rfl hfits hinformed
    · rw [pktFromUpper_of_not_fits hfits]
      exact hinformed
  | fromLower should_acked pkt => exact pktFromLower_informed should_acked hkeyed h hinformed
  | rxmit seqnb => exact hinformed
  | setThreshold len =>
    simp only [step, maysendSetThreshold]
    split_ifs with hset
    · exact informed_append
    · exact fun hset' => absurd hset' hset
  | maysendExpire =>
    rw [step]
    split_ifs
    · exact hinformed
    · intro hset hzero
      have hreport : s.zerotimerMaysend = some s.status := zerotimerMaysend_of_set hset
      show s.zerotimerMaysend.or s.reported = some s.status
      rw [hreport, Option.some_or]
  | seqnb2ackExpire =>
    rw [step, Rdgram.zerotimerSeqnb2ack]
    split_ifs
    · exact hinformed
    · exact hinformed

/-- **No crossing is missed**: where the lengths are accounted for, whoever waits for the
events knows on which side of the threshold the free length is, once none is to come. -/
theorem always_informed (sendbuf_max_len : ℕ) {evs : List Event}
    (h : Guarded step EventOk (start sendbuf_max_len) evs) :
    Always step Informed (start sendbuf_max_len) evs := by
  have hstep : ∀ s e, Omap.Keyed s.rdgram.sendbuf_pkt_db ∧ Accounted s ∧ Informed s →
      EventOk s e → Omap.Keyed (s.step e).rdgram.sendbuf_pkt_db ∧ Accounted (s.step e) ∧
        Informed (s.step e) := by
    rintro s e ⟨hkeyed, haccounted, hinformed⟩ he
    exact ⟨step_keyed hkeyed e, ((step_accounted_iff hkeyed haccounted e).2 he).1,
      step_informed hkeyed haccounted hinformed e⟩
  have hkeyed : Omap.Keyed (start sendbuf_max_len).rdgram.sendbuf_pkt_db := List.nodup_nil
  have hinformed : Informed (start sendbuf_max_len) := fun hset => Bool.noConfusion hset
  have hall := h.always hstep ⟨hkeyed, accounted_start sendbuf_max_len, hinformed⟩
  exact hall.mono fun s hs => hs.2.2

/-- A packet of which the acknowledgement brings the free length back to the threshold. -/
def sampleEvs : List Event :=
  [.setThreshold 8, .submit [1], .maysendExpire, .maysendExpire,
    .fromLower true (Rdgram.buildAck Rdgram.FIRST_SEQNB), .maysendExpire]

theorem always_informed_sample :
    Informed (run step (start 10) sampleEvs) ∧
      (run step (start 10) sampleEvs).reported = some .MAYSEND_ON :=
  ⟨(@always_informed 10 sampleEvs ⟨trivial, ⟨fun _ => by decide, by decide⟩, trivial, trivial,
    trivial, trivial, trivial⟩).run, by decide⟩

end RdgramSendbuf

end Neoip
