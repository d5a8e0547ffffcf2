/-
Neoip/PktfragPool.lean

The pool of the pending datagrams, over all runs with arbitrary fragments.

`pool_cur_size` is never changed, so the pool is accounted for exactly while the
pending datagrams hold no byte at all.  A fragment without data stops the scan
of `is_complete` for ever, and a datagram may be complete with more data than
its last fragment has announced.

Main result: `always_pool_accounted_iff`.
-/
import Neoip.PktfragRound

namespace Neoip

namespace PendingDgram

variable {d : PendingDgram} {offset rounds rounds' : ℕ} {b : Bool} {data : Datum}

/-- The bytes which the datagram holds. -/
def heldLen (d : PendingDgram) : ℕ := (d.fragment_db.map fun e => e.2.length).sum

theorem length_getCompleteDgram (d : PendingDgram) : d.getCompleteDgram.length = d.heldLen := by
  rw [getCompleteDgram, List.length_flatMap, heldLen]

/-! ### The scan -/

/-- The scan stays at a fragment without data. -/
theorem isComplete_of_nil (hfull : d.full_dgram_len ≠ 0)
    (hfind : Omap.find 0 d.fragment_db = some []) : d.isComplete = none := by
  have hscan : ∀ rounds, d.scan rounds 0 = none := by
    intro rounds
    induction rounds with
    | zero => rw [scan, if_neg (by omega)]
    | succ rounds ih =>
      rw [scan, if_neg (by omega), Nat.zero_mod, hfind]
      exact ih
  rw [isComplete, if_neg hfull, hscan]

/-- Without a fragment at the start the datagram is not complete. -/
theorem isComplete_of_find_none (hfind : Omap.find 0 d.fragment_db = none) :
    d.isComplete = some false := by
  rw [isComplete]
  split_ifs with hfull
  · rfl
  · obtain ⟨n, hn⟩ := Nat.exists_eq_succ_of_ne_zero hfull
    rw [hn, scan, if_neg (by omega), Nat.zero_mod, hfind]

/-- The first fragment may be all of the datagram. -/
theorem isComplete_of_first (hfull : d.full_dgram_len = data.length) (hne : data ≠ [])
    (hfind : Omap.find 0 d.fragment_db = some data) : d.isComplete = some true := by
  have hpos := List.length_pos_of_ne_nil hne
  obtain ⟨n, hn⟩ : ∃ n, d.full_dgram_len = n + 1 := ⟨data.length - 1, by omega⟩
  rw [isComplete, if_neg (by omega), hn, scan, if_neg (by omega), Nat.zero_mod, hfind]
  exact scan_of_le (by omega) n

/-! ### A fragment for a datagram which holds no byte -/

/-- A fragment which the datagram does not have is harmless.  With data, it is the whole datagram:
it is the first fragment, and the last one or as long as was announced.  Without, the length of
the datagram is still unknown, or no fragment is there at the start. -/
def Harmless (offset : ℕ) (more_bit : Bool) (data : Datum) (d : PendingDgram) : Prop :=
  if data ≠ [] then offset = 0 ∧ (more_bit = false ∨ d.full_dgram_len = data.length)
  else (if more_bit then d.full_dgram_len else offset) = 0 ∨
    offset ≠ 0 ∧ Omap.find 0 d.fragment_db = none

section Nil

variable {more_bit : Bool} (hnil : ∀ e ∈ d.fragment_db, e.2 = [])
  (hnew : Omap.find offset d.fragment_db = none)
include hnil

theorem heldLen_of_nil : d.heldLen = 0 := by
  rw [heldLen, List.sum_eq_zero_iff_forall_eq_nat]
  intro n hn
  obtain ⟨e, he, rfl⟩ := List.mem_map.1 hn
  rw [hnil e he, List.length_nil]

include hnew

theorem heldLen_link (more_bit : Bool) (data : Datum) :
    (d.link offset more_bit data).heldLen = data.length := by
  have hsum : ((Omap.place ltUint32 offset data d.fragment_db).map fun e => e.2.length).sum =
      data.length + (d.fragment_db.map fun e => e.2.length).sum :=
    Omap.sum_place fun e : ℕ × Datum => e.2.length
  have hzero := heldLen_of_nil hnil
  rw [heldLen] at hzero
  rw [heldLen, link, Omap.insert_of_find hnew, hsum, hzero, Nat.add_zero]

/-- What is at the start after a fragment which is not the first one. -/
theorem find_link_of_ne (more_bit : Bool) (data : Datum) (hne : offset ≠ 0) :
    Omap.find 0 (d.link offset more_bit data).fragment_db = none ∧
        Omap.find 0 d.fragment_db = none ∨
      Omap.find 0 (d.link offset more_bit data).fragment_db = some [] ∧
        Omap.find 0 d.fragment_db ≠ none := by
  rw [link, Omap.insert_of_find hnew, Omap.find_place_of_ne hne]
  cases hfind : Omap.find 0 d.fragment_db with
  | none => exact Or.inl ⟨rfl, rfl⟩
  | some x =>
    have hx : x = [] := hnil _ (Omap.mem_of_find hfind)
    rw [hx]
    exact Or.inr ⟨rfl, Option.some_ne_none _⟩

omit hnil in
theorem find_link_first (hzero : offset = 0) :
    Omap.find 0 (d.link offset more_bit data).fragment_db = some data := by
  subst hzero
  rw [link, Omap.insert_of_find hnew, Omap.find_place_self hnew]

omit hnil in
/-- A fragment with data which is harmless completes the datagram, with the length announced. -/
theorem Harmless.complete (h : Harmless offset more_bit data d) (hne : data ≠ []) :
    (d.link offset more_bit data).isComplete = some true ∧
      (d.link offset more_bit data).full_dgram_len = data.length := by
  rw [Harmless, if_pos hne] at h
  obtain ⟨hzero, hlen⟩ := h
  have hfull : (d.link offset more_bit data).full_dgram_len = data.length := by
    cases more_bit with
    | false => rw [link, hzero, if_neg Bool.false_ne_true, Nat.zero_add]
    | true =>
      rw [link, if_pos rfl]
      exact hlen.resolve_left Bool.true_eq_false.mp
  exact ⟨isComplete_of_first hfull hne (find_link_first hnew hzero), hfull⟩

/-- One without data leaves the datagram incomplete. -/
theorem harmless_nil_iff : Harmless offset more_bit [] d ↔
    (d.link offset more_bit []).isComplete = some false := by
  have hlen : (if more_bit then d.full_dgram_len else offset) =
      (d.link offset more_bit []).full_dgram_len := rfl
  rw [Harmless, if_neg (not_not.2 rfl), hlen]
  by_cases hfull : (d.link offset more_bit []).full_dgram_len = 0
  · refine iff_of_true (Or.inl hfull) ?_
    rw [isComplete, if_pos hfull]
  rw [or_iff_right hfull]
  by_cases hzero : offset = 0
  · refine iff_of_false (fun h => h.1 hzero) ?_
    rw [isComplete_of_nil hfull (find_link_first hnew hzero)]
    simp
  rw [and_iff_right hzero]
  rcases find_link_of_ne hnil hnew more_bit [] hzero with
    ⟨hlink, hfind⟩ | ⟨hlink, hfind⟩
  · exact iff_of_true hfind (isComplete_of_find_none hlink)
  · refine iff_of_false hfind ?_
    rw [isComplete_of_nil hfull hlink]
    simp

/-- A datagram which is complete has the length announced exactly when the fragment is
harmless. -/
theorem harmless_iff_of_complete
    (hcomplete : (d.link offset more_bit data).isComplete = some true) :
    Harmless offset more_bit data d ↔
      data.length = (d.link offset more_bit data).full_dgram_len := by
  have hfull : (d.link offset more_bit data).full_dgram_len ≠ 0 := by
    intro hzero
    rw [isComplete, if_pos hzero] at hcomplete
    cases hcomplete
  by_cases hne : data = []
  · subst hne
    rw [harmless_nil_iff hnil hnew, hcomplete]
    exact iff_of_false (by decide) fun h => hfull h.symm
  refine ⟨fun h => (h.complete hnew hne).2.symm, fun hlen => ?_⟩
  rw [Harmless, if_pos hne]
  by_cases hzero : offset = 0
  · refine ⟨hzero, ?_⟩
    cases more_bit with
    | false => exact Or.inl rfl
    | true => exact Or.inr hlen.symm
  · -- the scan finds nothing at the start, or stays there
    exfalso
    rcases find_link_of_ne hnil hnew more_bit data hzero with
      ⟨hlink, -⟩ | ⟨hlink, -⟩
    · rw [isComplete_of_find_none hlink] at hcomplete
      cases hcomplete
    · rw [isComplete_of_nil hfull hlink] at hcomplete
      cases hcomplete

end Nil

end PendingDgram

/-- A packet, or the timeout of a datagram. -/
inductive PktfragEvent
  | recv (pkt : Datum)
  | expire (seqnb : ℕ)
  deriving DecidableEq, Repr

namespace Pktfrag

/-- A step of the receiver.  There is none after a call which does not come back. -/
def step (s : Option Pktfrag) : PktfragEvent → Option Pktfrag
  | .recv pkt => receive s pkt
  | .expire seqnb => s.map (expire seqnb)

/-- The bytes of the fragments in the pool. -/
def heldLen (s : Pktfrag) : ℕ := (s.pending_dgram_db.map fun e => e.2.heldLen).sum

/-- The receiver has come back from every call, and its pool is accounted for. -/
def Accounted : Option Pktfrag → Prop
  | none => False
  | some s => s.heldLen = s.pool_cur_size ∧ (s.pool_max_size ≠ 0 → s.heldLen ≤ s.pool_max_size)

instance : DecidablePred Accounted
  | none => inferInstanceAs (Decidable False)
  | some s => inferInstanceAs (Decidable (_ ∧ (s.pool_max_size ≠ 0 → _)))

/-- The pending datagram which is complete with a packet that is received. -/
def completed (pkt : Datum) (s : Pktfrag) : Option PendingDgram :=
  match toFragment pkt with
  | none => none
  | some (seqnb, offset, more_bit, data) =>
    if s.pool_max_size ≠ 0 ∧ s.pool_max_size < data.length then none
    else match (s.pendingOf seqnb).addFragment offset more_bit data with
      | some (true, d) => some d
      | _ => none

/-- A datagram which is returned has the length which its last fragment has announced. -/
def Announced : Option Pktfrag → PktfragEvent → Prop
  | some s, .recv pkt => ∀ d, s.completed pkt = some d →
      d.getCompleteDgram.length = d.full_dgram_len
  | _, _ => True

/-- A fragment which fits in the pool, and which its datagram does not have, is harmless. -/
def Harmless : Option Pktfrag → PktfragEvent → Prop
  | some s, .recv pkt => ∀ seqnb offset more_bit data,
      toFragment pkt = some (seqnb, offset, more_bit, data) →
      ¬(s.pool_max_size ≠ 0 ∧ s.pool_max_size < data.length) →
      Omap.find offset (s.pendingOf seqnb).fragment_db = none →
      (s.pendingOf seqnb).Harmless offset more_bit data
  | _, _ => True

variable {s t : Pktfrag} {pkt data : Datum} {seqnb offset : ℕ} {more_bit : Bool} {e : PktfragEvent}

/-! ### The pool -/

/-- What every receiver keeps. -/
structure Pool (s : Pktfrag) : Prop where
  cur_size : s.pool_cur_size = 0
  keyed : Omap.Keyed s.pending_dgram_db

theorem pool_ctor (outter_mtu pool_max_size : ℕ) : (ctor outter_mtu pool_max_size).Pool :=
  ⟨rfl, List.nodup_nil⟩

/-- The pool is accounted for exactly while it holds no byte. -/
theorem Pool.accounted_iff (h : s.Pool) : Accounted (some s) ↔ s.heldLen = 0 := by
  rw [Accounted, h.cur_size]
  refine and_iff_left_of_imp fun hzero _ => ?_
  rw [hzero]
  exact Nat.zero_le _

theorem nil_of_heldLen (h : s.heldLen = 0) (seqnb : ℕ) :
    ∀ e ∈ (s.pendingOf seqnb).fragment_db, e.2 = [] := by
  rw [pendingOf]
  cases hfind : Omap.find seqnb s.pending_dgram_db with
  | none => exact fun _ he => absurd he List.not_mem_nil
  | some d =>
    intro e he
    rw [heldLen, List.sum_eq_zero_iff_forall_eq_nat] at h
    have hd : d.heldLen = 0 := h _ (List.mem_map.2 ⟨_, Omap.mem_of_find hfind, rfl⟩)
    rw [PendingDgram.heldLen, List.sum_eq_zero_iff_forall_eq_nat] at hd
    exact List.length_eq_zero_iff.1 (hd _ (List.mem_map.2 ⟨e, he, rfl⟩))

/-- The bytes of the other datagrams. -/
theorem heldLen_erase (h : s.heldLen = 0) :
    ((Omap.erase seqnb s.pending_dgram_db).map fun e => e.2.heldLen).sum = 0 := by
  rw [heldLen, List.sum_eq_zero_iff_forall_eq_nat] at h
  rw [List.sum_eq_zero_iff_forall_eq_nat]
  intro n hn
  obtain ⟨e, he, rfl⟩ := List.mem_map.1 hn
  exact h _ (List.mem_map.2 ⟨e, (Omap.mem_erase.1 he).1, rfl⟩)

theorem Pool.store (h : s.Pool) {r : PktfragErr × Datum × Pktfrag}
    (hstore : s.store seqnb offset more_bit data = some r) : r.2.2.Pool := by
  rw [Pktfrag.store] at hstore
  split at hstore
  · cases hstore
  · rw [← Option.some.inj hstore]
    exact ⟨h.cur_size, Omap.keyed_erase h.keyed⟩
  · rw [← Option.some.inj hstore]
    exact ⟨h.cur_size, Omap.keyed_assign h.keyed⟩

theorem Pool.step (h : s.Pool) (e : PktfragEvent) (hstep : Pktfrag.step (some s) e = some t) :
    t.Pool := by
  cases e with
  | expire seqnb =>
    rw [← Option.some.inj hstep]
    exact ⟨h.cur_size, Omap.keyed_erase h.keyed⟩
  | recv pkt =>
    obtain ⟨r, hlower, rfl⟩ := Option.map_eq_some_iff.1 hstep
    cases hfrag : toFragment pkt with
    | none =>
      obtain ⟨reason, pkt', hbogus⟩ := pktFromLower_of_bogus (s := s) hfrag
      rw [hbogus] at hlower
      rw [← Option.some.inj hlower]
      exact h
    | some frag =>
      obtain ⟨seqnb, offset, more_bit, data⟩ := frag
      rw [pktFromLower_of_toFragment h.cur_size hfrag] at hlower
      split_ifs at hlower
      · rw [← Option.some.inj hlower]
        exact h
      · exact h.store hlower

/-! ### Runs -/

/-- A fragment which the pool has room for, and which its datagram does not have: the receiver
comes back with the pool accounted for and the length announced exactly when it is harmless. -/
theorem Pool.store_iff (h : s.Pool) (hheld : s.heldLen = 0)
    (hfrag : toFragment pkt = some (seqnb, offset, more_bit, data))
    (hroom : ¬(s.pool_max_size ≠ 0 ∧ s.pool_max_size < data.length))
    (hnew : Omap.find offset (s.pendingOf seqnb).fragment_db = none) :
    Accounted (Pktfrag.step (some s) (.recv pkt)) ∧ Announced (some s) (.recv pkt) ↔
      (s.pendingOf seqnb).Harmless offset more_bit data := by
  have hnil := nil_of_heldLen hheld seqnb
  have hstep : Pktfrag.step (some s) (.recv pkt) =
      (s.store seqnb offset more_bit data).map fun r => r.2.2 := by
    rw [Pktfrag.step, receive, Option.bind_some, pktFromLower_of_toFragment h.cur_size hfrag,
      if_neg hroom]
  have hadd : (s.pendingOf seqnb).addFragment offset more_bit data =
      ((s.pendingOf seqnb).link offset more_bit data).isComplete.map fun complete =>
        (complete, (s.pendingOf seqnb).link offset more_bit data) := by
    rw [PendingDgram.addFragment, hnew]
  have hlen := PendingDgram.heldLen_link hnil hnew more_bit data
  rw [hstep, Pktfrag.store, Announced, completed, hfrag]
  dsimp only
  rw [if_neg hroom, ← pendingOf, hadd]
  cases hcomplete : ((s.pendingOf seqnb).link offset more_bit data).isComplete with
  | none =>
    -- the assertions of isComplete fail
    refine iff_of_false (fun h => h.1) fun hharmless => ?_
    by_cases hne : data = []
    · subst hne
      rw [PendingDgram.harmless_nil_iff hnil hnew, hcomplete] at hharmless
      cases hharmless
    · rw [(hharmless.complete hnew hne).1] at hcomplete
      cases hcomplete
  | some complete =>
    cases complete with
    | false =>
      -- held, while cur_size was not raised: sound only for a fragment without data
      have hpool : ({ s with pending_dgram_db := (Omap.assign ltUint32 seqnb
          ((s.pendingOf seqnb).link offset more_bit data) s.pending_dgram_db) } :
            Pktfrag).heldLen = data.length := by
        rw [heldLen, Omap.assign, Omap.sum_place, heldLen_erase hheld, hlen, Nat.add_zero]
      have hkeyed : ({ s with pending_dgram_db := (Omap.assign ltUint32 seqnb
          ((s.pendingOf seqnb).link offset more_bit data) s.pending_dgram_db) } :
            Pktfrag).Pool := ⟨h.cur_size, Omap.keyed_assign h.keyed⟩
      have hann : ∀ d, (none : Option PendingDgram) = some d →
          d.getCompleteDgram.length = d.full_dgram_len := by simp
      refine (and_iff_left hann).trans (hkeyed.accounted_iff.trans ?_)
      rw [hpool, List.length_eq_zero_iff]
      by_cases hne : data = []
      · subst hne
        rw [PendingDgram.harmless_nil_iff hnil hnew, hcomplete]
        exact iff_of_true rfl rfl
      · refine iff_of_false hne fun hharmless => ?_
        rw [(hharmless.complete hnew hne).1] at hcomplete
        cases hcomplete
    | true =>
      -- whole at once: it is delivered, and nothing is held
      have hpool : ({ s with pending_dgram_db := (Omap.erase seqnb s.pending_dgram_db) } :
          Pktfrag).heldLen = 0 := heldLen_erase hheld
      have hkeyed : ({ s with pending_dgram_db := (Omap.erase seqnb s.pending_dgram_db) } :
          Pktfrag).Pool := ⟨h.cur_size, Omap.keyed_erase h.keyed⟩
      rw [PendingDgram.harmless_iff_of_complete hnil hnew hcomplete, ← hlen,
        ← PendingDgram.length_getCompleteDgram]
      refine (and_iff_right (hkeyed.accounted_iff.2 hpool)).trans ?_
      refine ⟨fun hann => hann _ rfl, ?_⟩
      rintro heq d hd
      rw [← Option.some.inj hd]
      exact heq

theorem Pool.step_iff (h : s.Pool) (hheld : s.heldLen = 0) (e : PktfragEvent) :
    Accounted (Pktfrag.step (some s) e) ∧ Announced (some s) e ↔ Harmless (some s) e := by
  cases e with
  | expire seqnb =>
    have hpool : (s.expire seqnb).Pool := ⟨h.cur_size, Omap.keyed_erase h.keyed⟩
    exact iff_of_true ⟨hpool.accounted_iff.2 (heldLen_erase hheld), trivial⟩ trivial
  | recv pkt =>
    -- the pool stays as it was, and no datagram is complete
    have hsame : s.completed pkt = none → (∃ s', Pktfrag.step (some s) (.recv pkt) = some s' ∧
        s'.heldLen = 0) → Accounted (Pktfrag.step (some s) (.recv pkt)) ∧
          Announced (some s) (.recv pkt) := by
      rintro hnone ⟨s', hstep, hzero⟩
      refine ⟨?_, fun d hd => ?_⟩
      · rw [hstep]
        exact (h.step _ hstep).accounted_iff.2 hzero
      · rw [hnone] at hd
        cases hd
    cases hfrag : toFragment pkt with
    | none =>
      refine iff_of_true (hsame ?_ ⟨s, ?_, hheld⟩) ?_
      · rw [completed, hfrag]
      · obtain ⟨reason, pkt', hbogus⟩ := pktFromLower_of_bogus (s := s) hfrag
        rw [Pktfrag.step, receive, Option.bind_some, hbogus, Option.map_some]
      · intro seqnb offset more_bit data hfrag'
        rw [hfrag] at hfrag'
        cases hfrag'
    | some frag =>
      obtain ⟨seqnb, offset, more_bit, data⟩ := frag
      -- what is said of the fragment, once it is known
      have hharmless : Harmless (some s) (.recv pkt) ↔
          (¬(s.pool_max_size ≠ 0 ∧ s.pool_max_size < data.length) →
            Omap.find offset (s.pendingOf seqnb).fragment_db = none →
            (s.pendingOf seqnb).Harmless offset more_bit data) := by
        refine ⟨fun h => h seqnb offset more_bit data hfrag, ?_⟩
        intro h seqnb' offset' more_bit' data' hfrag'
        rw [hfrag] at hfrag'
        cases hfrag'
        exact h
      rw [hharmless]
      by_cases hroom : s.pool_max_size ≠ 0 ∧ s.pool_max_size < data.length
      · refine iff_of_true (hsame ?_ ⟨s, ?_, hheld⟩) fun h => absurd hroom h
        · rw [completed, hfrag]
          exact if_pos hroom
        · rw [Pktfrag.step, receive, Option.bind_some,
            pktFromLower_of_toFragment h.cur_size hfrag, if_pos hroom, Option.map_some]
      cases hfind : Omap.find offset (s.pendingOf seqnb).fragment_db with
      | none =>
        rw [h.store_iff hheld hfrag hroom hfind]
        exact ⟨fun h _ _ => h, fun h => h hroom rfl⟩
      | some x =>
        have hadd : (s.pendingOf seqnb).addFragment offset more_bit data =
            some (false, s.pendingOf seqnb) := by
          rw [PendingDgram.addFragment, hfind]
        refine iff_of_true (hsame ?_ ⟨{ s with pending_dgram_db :=
          (Omap.assign ltUint32 seqnb (s.pendingOf seqnb) s.pending_dgram_db) }, ?_, ?_⟩)
          (by simp)
        · rw [completed, hfrag]
          dsimp only
          rw [if_neg hroom, hadd]
        · rw [Pktfrag.step, receive, Option.bind_some,
            pktFromLower_of_toFragment h.cur_size hfrag, if_neg hroom, Pktfrag.store,
            ← pendingOf, hadd, Option.map_some]
        · show (List.map _ (Omap.assign _ _ _ _)).sum = 0
          rw [Omap.assign, Omap.sum_place, heldLen_erase hheld, Nat.add_zero]
          exact PendingDgram.heldLen_of_nil (nil_of_heldLen hheld seqnb)

/-- **The pool**: in a run with arbitrary packets, every call comes back, the pool is accounted
for and each datagram has the length announced, exactly when every fragment is harmless. -/
theorem always_pool_accounted_iff (outter_mtu pool_max_size : ℕ) (evs : List PktfragEvent) :
    Always step Accounted (some (ctor outter_mtu pool_max_size)) evs ∧
        Guarded step Announced (some (ctor outter_mtu pool_max_size)) evs ↔
      Guarded step Harmless (some (ctor outter_mtu pool_max_size)) evs := by
  have hctor := pool_ctor outter_mtu pool_max_size
  refine always_and_guarded_iff (Q := fun s => ∀ t, s = some t → t.Pool) ?_ ?_
    (hctor.accounted_iff.2 rfl) ?_ always_true
  · rintro (- | s) e hpool hacc -
    · exact hacc.elim
    · intro t hstep
      exact (hpool s rfl).step e hstep
  · rintro (- | s) e hpool hacc -
    · exact hacc.elim
    · exact (hpool s rfl).step_iff ((hpool s rfl).accounted_iff.1 hacc) e
  · rintro t ht
    rw [← Option.some.inj ht]
    exact hctor

/-- The first of two fragments is held, and is not accounted for. -/
theorem not_accounted_held : ¬∀ (outter_mtu pool_max_size : ℕ) (evs : List PktfragEvent),
    Always step Accounted (some (ctor outter_mtu pool_max_size)) evs ∧
      Guarded step Announced (some (ctor outter_mtu pool_max_size)) evs := by
  intro h
  have hall := (h 1400 30720 [.recv (buildFragment 1 0 true [7])]).1
  exact not_always_of_run (by decide) hall

end Pktfrag

end Neoip
