/-
Neoip/ScnxReplay.lean

The anti-replay of `scnx_full_t`, over all runs.

Each receive context marks in its window the numbers which have been accepted
under its key: the window holds the function which says of a number whether it
has (`Marks`).  A context keeps its window when it becomes the alternate one,
and the context which replaces it has a key which is new.

Main result: no number is accepted twice under one key, and every number past
the last one of a window is accepted (`replay_safe`).
-/
import Neoip.Scnx

namespace Neoip

namespace ScnxRecv

/-- The window of the context holds which numbers have been accepted under its key, and begins
`AREPLAY_WIN_SIZE_DFL` behind the last one of them. -/
structure Marks (r : ScnxRecv) (accepted : List (Skey × BitVec 32)) : Prop where
  holds : r.areplay_window.Holds fun seqnb => decide ((r.base_key, seqnb) ∈ accepted)
  dfl_value : r.areplay_window.dfl_value = false
  win_size : r.areplay_window.win_size = AREPLAY_WIN_SIZE_DFL
  first : r.areplay_window.index_begin.toNat = 0 ∨ ∃ seqnb, (r.base_key, seqnb) ∈ accepted ∧
    seqnb.toNat + 1 = r.areplay_window.index_begin.toNat + AREPLAY_WIN_SIZE_DFL

variable {r : ScnxRecv} {accepted : List (Skey × BitVec 32)} {seqnb : BitVec 32} {key : Skey}

theorem marks_ctor (h : ∀ seqnb, (key, seqnb) ∉ accepted) : (ctor key).Marks accepted where
  holds := by
    refine (Slidwin.holds_ctor false (by decide) (by decide)).congr fun i _ => ?_
    exact (decide_eq_false (h i)).symm
  dfl_value := rfl
  win_size := rfl
  first := .inl rfl

/-- A number is replayed when it is below the window or has been accepted. -/
theorem Marks.isReplayed_eq_false (h : r.Marks accepted) : r.isReplayed seqnb = false ↔
    r.areplay_window.index_begin ≤ seqnb ∧ (r.base_key, seqnb) ∉ accepted := by
  rw [isReplayed, Bool.or_eq_false_iff, decide_eq_false_iff_not, BitVec.not_lt]
  apply and_congr_right
  intro hle
  have hvalue := h.holds.value seqnb hle
  rw [h.dfl_value] at hvalue
  rw [hvalue, decide_eq_false_iff_not]

/-- A number past the last one of the window is not replayed. -/
theorem Marks.isReplayed_of_last_lt (h : r.Marks accepted)
    (hlast : r.areplay_window.getIndexLast < seqnb) : r.isReplayed seqnb = false := by
  have hdfl := h.holds.eq_dfl hlast
  rw [h.dfl_value, decide_eq_false_iff_not] at hdfl
  exact h.isReplayed_eq_false.2 ⟨h.holds.index_begin_le_of_last_lt hlast, hdfl⟩

/-- The context goes on holding what has been accepted, when it accepts a number. -/
theorem Marks.mark (h : r.Marks accepted) (hrep : r.isReplayed seqnb = false) :
    (r.mark seqnb).Marks (accepted ++ [(r.base_key, seqnb)]) := by
  obtain ⟨hle, -⟩ := h.isReplayed_eq_false.1 hrep
  have hbegin := h.holds.toNat_index_begin_set hle true
  constructor
  · refine (h.holds.set hle true).congr fun i _ => ?_
    by_cases hi : i = seqnb
    · simp [hi]
    · simp [hi]
  · exact (Slidwin.dfl_value_set seqnb true _).trans h.dfl_value
  · exact (h.holds.win_size_set hle true).trans h.win_size
  · rw [h.win_size] at hbegin
    rcases le_or_gt (seqnb.toNat + 1 - AREPLAY_WIN_SIZE_DFL) r.areplay_window.index_begin.toNat
      with hmax | hmax
    · rw [max_eq_left hmax] at hbegin
      rw [ScnxRecv.mark, hbegin]
      refine h.first.imp_right ?_
      rintro ⟨q, hq, heq⟩
      exact ⟨q, List.mem_append_left _ hq, heq⟩
    · rw [max_eq_right (le_of_lt hmax)] at hbegin
      right
      refine ⟨seqnb, List.mem_append_right _ (List.mem_singleton.2 rfl), ?_⟩
      rw [ScnxRecv.mark, hbegin]
      omega

/-- What is accepted under other keys does not matter. -/
theorem Marks.append (h : r.Marks accepted) (hne : r.base_key ≠ key) (seqnb : BitVec 32) :
    r.Marks (accepted ++ [(key, seqnb)]) := by
  refine ⟨h.holds.congr fun i _ => ?_, h.dfl_value, h.win_size, ?_⟩
  · simp [hne]
  · refine h.first.imp_right fun ⟨q, hq, heq⟩ => ⟨q, List.mem_append_left _ hq, heq⟩

end ScnxRecv

namespace ScnxFull

/-- The anti-replay invariant. -/
structure Replay (s : ScnxFull) : Prop where
  nodup : s.accepted.Nodup
  /-- No key is derived from the receive key yet. -/
  depth : ∀ a ∈ s.accepted, a.1.depth ≤ s.recv_key.depth
  key : s.full_recv.base_key = s.recv_key
  marks : s.full_recv.Marks s.accepted
  arcv : ∀ r, s.full_arcv = some r → r.base_key.rkey = s.recv_key ∧ r.Marks s.accepted

variable {C : Crypto} {s s' : ScnxFull} {r : ScnxRecv} {seqnb : BitVec 32}

theorem Replay.start (is_itor_f reliable_outter_cnx : Bool) (estapkt_in estapkt_out : Datum) :
    Replay (start is_itor_f reliable_outter_cnx estapkt_in estapkt_out) where
  nodup := List.nodup_nil
  depth := by
    intro a ha
    cases ha
  key := rfl
  marks := ScnxRecv.marks_ctor fun _ => List.not_mem_nil
  arcv := by
    intro r hr
    cases hr

/-- The invariant is about the receive side only. -/
theorem Replay.congr (h : Replay s) (hkey : s'.recv_key = s.recv_key)
    (hrecv : s'.full_recv = s.full_recv) (harcv : s'.full_arcv = s.full_arcv)
    (haccepted : s'.accepted = s.accepted) : Replay s' := by
  obtain ⟨hnodup, hdepth, hbase, hmarks, halt⟩ := h
  constructor
  · rwa [haccepted]
  · rwa [haccepted, hkey]
  · rwa [hrecv, hkey]
  · rwa [hrecv, haccepted]
  · rwa [harcv, hkey, haccepted]

/-- The contexts mark what has been accepted under their keys. -/
theorem Replay.marks_of_isRecv (h : Replay s) (hr : s.IsRecv r) : r.Marks s.accepted := by
  rcases hr with rfl | hr
  · exact h.marks
  · exact (h.arcv r hr).2

theorem Replay.depth_of_isRecv (h : Replay s) (hr : s.IsRecv r) :
    r.base_key.depth ≤ s.recv_key.depth := by
  rcases hr with rfl | hr
  · rw [h.key]
  · rw [← (h.arcv r hr).1, Skey.depth_rkey]
    omega

/-- What a context accepts has not been accepted under its key. -/
theorem Replay.nodup_append (h : Replay s) (hr : s.IsRecv r) (hrep : r.isReplayed seqnb = false) :
    (s.accepted ++ [(r.base_key, seqnb)]).Nodup := by
  have hnot := ((h.marks_of_isRecv hr).isReplayed_eq_false.1 hrep).2
  rw [List.nodup_append]
  refine ⟨h.nodup, List.nodup_singleton _, fun a ha b hb => ?_⟩
  rw [List.mem_singleton] at hb
  rintro rfl
  exact hnot (hb ▸ ha)

theorem Replay.depth_append (h : Replay s) (hr : s.IsRecv r) :
    ∀ a ∈ s.accepted ++ [(r.base_key, seqnb)], a.1.depth ≤ s.recv_key.depth := by
  intro a ha
  rcases List.mem_append.1 ha with ha | ha
  · exact h.depth a ha
  · rw [List.mem_singleton.1 ha]
    exact h.depth_of_isRecv hr

theorem Replay.acceptRecv (h : Replay s) (hrep : s.full_recv.isReplayed seqnb = false) :
    Replay (s.acceptRecv seqnb) where
  nodup := h.nodup_append (.inl rfl) hrep
  depth := h.depth_append (.inl rfl)
  key := h.key
  marks := h.marks.mark hrep
  arcv := by
    intro r hr
    cases hr

theorem Replay.acceptArcv (h : Replay s) (hr : s.full_arcv = some r)
    (hrep : r.isReplayed seqnb = false) : Replay (s.acceptArcv r seqnb) where
  nodup := h.nodup_append (.inr hr) hrep
  depth := h.depth_append (.inr hr)
  key := h.key
  marks := by
    refine h.marks.append ?_ seqnb
    rw [h.key, ← (h.arcv r hr).1]
    exact Skey.rkey_ne _
  arcv := by
    rintro _ ⟨⟩
    exact ⟨(h.arcv r hr).1, (h.arcv r hr).2.mark hrep⟩

/-- The context which becomes the alternate one keeps its window, and the key of the new one is
new. -/
theorem Replay.deriveRecv (h : Replay s) (remote_nonce : Nonceid) :
    Replay (s.deriveRecv remote_nonce) where
  nodup := h.nodup
  depth := fun a ha => le_trans (h.depth a ha) (Nat.le_succ _)
  key := rfl
  marks := by
    refine ScnxRecv.marks_ctor fun q hq => ?_
    have hdepth := h.depth _ hq
    rw [Skey.depth_rkey] at hdepth
    omega
  arcv := by
    rintro _ ⟨⟩
    exact ⟨congrArg Skey.rkey h.key, h.marks⟩

theorem Replay.secure (h : Replay s) (plain : ScnxPlain) : Replay (s.secure C plain).2 :=
  h.congr rfl rfl rfl rfl

theorem Replay.recvSecured (h : Replay s) (pkt : Datum) : Replay (s.recvSecured C pkt).2.2 := by
  rcases s.recvSecured_cases C pkt with
    ⟨err, pkt', heq, -⟩ | ⟨r, seqnb, ct, -, hrep, -, ⟨rfl, heq⟩ | ⟨hr, -, heq⟩⟩
  · rw [heq]
    exact h
  · rw [heq]
    exact h.acceptRecv hrep
  · rw [heq]
    exact h.acceptArcv hr hrep

theorem Replay.dispatch (h : Replay s) (pkt : Datum) : Replay (s.dispatch C pkt).2.2 := by
  rcases s.dispatch_cases C pkt with heq | ⟨nonce, rest, -, heq⟩ | ⟨rest, -, -, heq⟩
  · rw [heq]
    exact h
  · have hreply : Replay (s.queueReply C nonce) := h.congr rfl rfl rfl rfl
    rw [heq]
    split_ifs
    · exact hreply
    · exact hreply.deriveRecv nonce
  · rw [heq]
    exact h.congr rfl rfl rfl rfl

theorem Replay.nullifyEstapkt (h : Replay s) : Replay s.nullifyEstapkt := by
  rw [ScnxFull.nullifyEstapkt]
  split_ifs
  · exact h.congr rfl rfl rfl rfl
  · exact h

theorem Replay.pktFromUpper (h : Replay s) (nonce : Nonceid) (pkt : Datum) :
    Replay (s.pktFromUpper C nonce pkt).2 := by
  rw [ScnxFull.pktFromUpper]
  split_ifs
  · exact h
  · exact h.congr rfl rfl rfl rfl
  · exact h.secure _

theorem Replay.pktFromLower (h : Replay s) (pkt : Datum) : Replay (s.pktFromLower C pkt).2.2 := by
  rcases s.pktFromLower_cases C pkt with ⟨_, _, -, -, heq | heq⟩ | ⟨pkt', s', hrecv, heq⟩
  · rw [heq]
    exact h
  · rw [heq]
    exact h.congr rfl rfl rfl rfl
  · have hs' := h.recvSecured (C := C) pkt
    rw [hrecv] at hs'
    rw [heq]
    exact hs'.nullifyEstapkt.dispatch pkt'

theorem Replay.step (h : Replay s) (e : ScnxEvent) : Replay (s.step C e) := by
  cases e with
  | pktFromUpper nonce pkt => exact h.pktFromUpper nonce pkt
  | pktFromLower pkt => exact h.pktFromLower pkt
  | rxmitTimeout =>
    rw [ScnxFull.step, handle]
    split_ifs
    · exact h.congr rfl rfl rfl rfl
    · exact h
  | zerotimer => exact h.congr rfl rfl rfl rfl

theorem Replay.always (C : Crypto) (is_itor_f reliable_outter_cnx : Bool)
    (estapkt_in estapkt_out : Datum) (evs : List ScnxEvent) :
    Always (ScnxFull.step C) Replay
      (ScnxFull.start is_itor_f reliable_outter_cnx estapkt_in estapkt_out) evs := by
  apply always_invariant
  · intro s e h
    exact h.step e
  · exact Replay.start _ _ _ _

/-- The connection accepts a packet under the key of a context, when the number is not replayed
and the main context does not take the packet for its own. -/
theorem recvSecured_of_isRecv (C : Crypto) {ciphertxt : Datum} (hr : s.IsRecv r)
    (hrep : r.isReplayed seqnb = false)
    (hown : r = s.full_recv ∨ ¬s.full_recv.Authenticates C (C.secured r.base_key seqnb ciphertxt)) :
    (s.recvSecured C (C.secured r.base_key seqnb ciphertxt)).1 = .OK ∧
      (s.recvSecured C (C.secured r.base_key seqnb ciphertxt)).2.2.accepted =
        s.accepted ++ [(r.base_key, seqnb)] := by
  rcases hown with rfl | hown
  · rw [recvSecured_main C s hrep ciphertxt]
    exact ⟨rfl, rfl⟩
  · rcases hr with rfl | hr
    · rw [recvSecured_main C s hrep ciphertxt]
      exact ⟨rfl, rfl⟩
    · rw [recvSecured_arcv C hown hr hrep]
      exact ⟨rfl, rfl⟩

/-- **Anti-replay**: in every run no number is accepted twice under one key, be the context the
main one or the alternate one, and a number past the last one of the window is accepted. -/
theorem replay_safe (C : Crypto) (is_itor_f reliable_outter_cnx : Bool)
    (estapkt_in estapkt_out : Datum) (evs : List ScnxEvent) :
    Always (ScnxFull.step C)
      (fun s => s.accepted.Nodup ∧ ∀ r, s.IsRecv r → ∀ seqnb ciphertxt,
        r.areplay_window.getIndexLast < seqnb →
        (r = s.full_recv ∨
          ¬s.full_recv.Authenticates C (C.secured r.base_key seqnb ciphertxt)) →
        (s.recvSecured C (C.secured r.base_key seqnb ciphertxt)).1 = .OK ∧
          (s.recvSecured C (C.secured r.base_key seqnb ciphertxt)).2.2.accepted =
            s.accepted ++ [(r.base_key, seqnb)])
      (ScnxFull.start is_itor_f reliable_outter_cnx estapkt_in estapkt_out) evs := by
  refine (Replay.always C _ _ _ _ evs).mono ?_
  intro s h
  refine ⟨h.nodup, fun r hr seqnb ciphertxt hlast hown => ?_⟩
  exact recvSecured_of_isRecv C hr ((h.marks_of_isRecv hr).isReplayed_of_last_lt hlast) hown

/-- A packet, the same one again, and one which makes the window slide by more than its width. -/
def replaySample : ScnxFull :=
  run (ScnxFull.step sampleCrypto) (ScnxFull.start false true [] [])
    [.pktFromLower (sampleCrypto.secured (directionKey true) 7 [1]),
      .pktFromLower (sampleCrypto.secured (directionKey true) 7 [1]),
      .pktFromLower (sampleCrypto.secured (directionKey true) 90 [1])]

theorem replay_safe_sample :
    replaySample.accepted = [(directionKey true, 7), (directionKey true, 90)] ∧
      (replaySample.recvSecured sampleCrypto
        (sampleCrypto.secured replaySample.full_recv.base_key 91 [1])).1 = .OK :=
  ⟨by decide, ((replay_safe sampleCrypto false true [] [] _).run.2 replaySample.full_recv (.inl rfl)
    91 [1] (by decide) (.inl rfl)).1⟩

/-- **Reordering**: a number which has not been accepted, and is less than the width of the window
behind those which have, is accepted. -/
theorem accepts_reordered (C : Crypto) (is_itor_f reliable_outter_cnx : Bool)
    (estapkt_in estapkt_out : Datum) (evs : List ScnxEvent) :
    Always (ScnxFull.step C)
      (fun s => ∀ r, s.IsRecv r → ∀ seqnb, (r.base_key, seqnb) ∉ s.accepted →
        (∀ q, (r.base_key, q) ∈ s.accepted →
          q.toNat < seqnb.toNat + ScnxRecv.AREPLAY_WIN_SIZE_DFL) →
        r.isReplayed seqnb = false)
      (ScnxFull.start is_itor_f reliable_outter_cnx estapkt_in estapkt_out) evs := by
  refine (Replay.always C _ _ _ _ evs).mono ?_
  intro s h r hr seqnb hnot hnear
  have hmarks := h.marks_of_isRecv hr
  refine hmarks.isReplayed_eq_false.2 ⟨BitVec.le_def.2 ?_, hnot⟩
  rcases hmarks.first with hzero | ⟨q, hq, heq⟩
  · omega
  · have := hnear q hq
    omega

end ScnxFull

end Neoip
