/-
Neoip/ScnxSeqnb.lean

The sequence numbers which `scnx_full_t` enciphers with, and what it hands to the
upper layer, over all runs.

The packets under one key, be they data or signalling, carry 0, 1, 2 and so on,
modulo `2 ^ 32` (`Numbered`): a number comes twice exactly when more than
`2 ^ 32` packets have been enciphered under the key.

Main result: `seqnb_safe`.
-/
import Mathlib.Data.List.Nodup
import Neoip.Scnx
import Neoip.Wai

namespace Neoip

/-! ### Numbers modulo a power of two -/

/-- The first `n` numbers, as a counter of `w` bits gives them. -/
def counterNumbers (w n : ℕ) : List (BitVec w) := (List.range n).map (BitVec.ofNat w)

theorem counterNumbers_succ (w n : ℕ) :
    counterNumbers w (n + 1) = counterNumbers w n ++ [BitVec.ofNat w n] := by
  rw [counterNumbers, List.range_succ, List.map_append]
  rfl

@[simp] theorem length_counterNumbers (w n : ℕ) : (counterNumbers w n).length = n := by
  rw [counterNumbers, List.length_map, List.length_range]

/-- A counter gives a number again once it has given them all. -/
theorem nodup_counterNumbers_iff {w n : ℕ} : (counterNumbers w n).Nodup ↔ n ≤ 2 ^ w := by
  rw [counterNumbers, List.nodup_map_iff_inj_on List.nodup_range]
  constructor
  · intro hinj
    by_contra hlt
    have hpos := Nat.two_pow_pos w
    have heq : BitVec.ofNat w 0 = BitVec.ofNat w (2 ^ w) := by
      apply BitVec.eq_of_toNat_eq
      rw [BitVec.toNat_ofNat, BitVec.toNat_ofNat, Nat.zero_mod, Nat.mod_self]
    have hzero := hinj 0 (List.mem_range.2 (by omega)) (2 ^ w) (List.mem_range.2 (by omega)) heq
    omega
  · intro hn i hi j hj heq
    rw [List.mem_range] at hi hj
    have htoNat := congrArg BitVec.toNat heq
    rwa [BitVec.toNat_ofNat, BitVec.toNat_ofNat, Nat.mod_eq_of_lt (by omega),
      Nat.mod_eq_of_lt (by omega)] at htoNat

/-- Pairs are distinct when the second components are, for each first component. -/
theorem nodup_map_pair_iff {ε κ β : Type*} [DecidableEq κ] {l : List ε} (f : ε → κ) (g : ε → β) :
    (l.map fun e => (f e, g e)).Nodup ↔ ∀ k, ((l.filter (f · = k)).map g).Nodup := by
  simp only [List.Nodup, List.pairwise_map, List.pairwise_filter, decide_eq_true_eq, ne_eq,
    Prod.mk.injEq, not_and]
  constructor
  · intro h k
    exact h.imp fun hab ha hb => hab (ha.trans hb.symm)
  · intro h
    rw [List.pairwise_iff_forall_sublist]
    intro a b hsub hkey
    exact (h (f b)).forall_sublist hsub hkey rfl

namespace ScnxFull

/-! ### The numbers under one key -/

/-- The numbers of the packets which have been enciphered under the key, in order. -/
def seqnbs (key : Skey) (s : ScnxFull) : List (BitVec 32) :=
  (s.enciphered.filter (·.key = key)).map (·.seqnb)

/-- The key and the number of each packet which has been enciphered. -/
def usedSeqnbs (s : ScnxFull) : List (Skey × BitVec 32) :=
  s.enciphered.map fun e => (e.key, e.seqnb)

/-- The numbering invariant. -/
structure Numbered (s : ScnxFull) : Prop where
  key : s.full_xmit.base_key = s.xmit_key
  /-- No key is derived from the xmit key yet. -/
  depth : ∀ e ∈ s.enciphered, e.key.depth ≤ s.xmit_key.depth
  numbers : ∀ key, s.seqnbs key = counterNumbers 32 (s.seqnbs key).length
  next : s.full_xmit.seqnb = BitVec.ofNat 32 (s.seqnbs s.xmit_key).length
  reserved : ∀ e ∈ s.enciphered, ∀ pkt, e.plain = .data pkt → s.reliable_outter_cnx = false →
    e.seqnb < SEQNB_SIG_RESERVED

variable {C : Crypto} {s s' : ScnxFull} {plain : ScnxPlain}

theorem Numbered.start (is_itor_f reliable_outter_cnx : Bool) (estapkt_in estapkt_out : Datum) :
    Numbered (start is_itor_f reliable_outter_cnx estapkt_in estapkt_out) where
  key := rfl
  depth := by
    intro e he
    cases he
  numbers := fun _ => rfl
  next := rfl
  reserved := by
    intro e he
    cases he

/-- The invariant is about the transmit side only. -/
theorem Numbered.congr (h : Numbered s) (hkey : s'.xmit_key = s.xmit_key)
    (hxmit : s'.full_xmit = s.full_xmit) (hlog : s'.enciphered = s.enciphered)
    (hrel : s'.reliable_outter_cnx = s.reliable_outter_cnx) : Numbered s' := by
  have hseqnbs : ∀ key, s'.seqnbs key = s.seqnbs key := by
    intro key
    rw [seqnbs, seqnbs, hlog]
  obtain ⟨hbase, hdepth, hnumbers, hnext, hreserved⟩ := h
  constructor
  · rwa [hxmit, hkey]
  · rwa [hlog, hkey]
  · intro key
    rw [hseqnbs]
    exact hnumbers key
  · rw [hxmit, hkey, hseqnbs]
    exact hnext
  · rwa [hlog, hrel]

theorem seqnbs_secure (key : Skey) : (s.secure C plain).2.seqnbs key =
    s.seqnbs key ++ if s.full_xmit.base_key = key then [s.full_xmit.seqnb] else [] := by
  simp only [seqnbs, secure, List.filter_append, List.map_append, List.filter_cons, List.filter_nil]
  split_ifs <;> simp_all

/-- **The counter**: each packet takes the next number of its key. -/
theorem Numbered.secure (h : Numbered s) (hdata : ∀ pkt, plain = .data pkt →
      s.reliable_outter_cnx = false → s.full_xmit.seqnb < SEQNB_SIG_RESERVED) :
    Numbered (s.secure C plain).2 where
  key := h.key
  depth := by
    intro e he
    rcases List.mem_append.1 he with he | he
    · exact h.depth e he
    · rw [List.mem_singleton.1 he]
      exact le_of_eq (congrArg Skey.depth h.key)
  numbers := by
    intro key
    rw [seqnbs_secure]
    by_cases hkey : s.full_xmit.base_key = key
    · have hnext := h.next
      rw [← h.key, hkey] at hnext
      rw [if_pos hkey, hnext, List.length_append, List.length_singleton, counterNumbers_succ,
        ← h.numbers key]
    · rw [if_neg hkey, List.append_nil]
      exact h.numbers key
  next := by
    have hxmit : (s.secure C plain).2.full_xmit.seqnb = s.full_xmit.seqnb + 1 := rfl
    have hkey : (s.secure C plain).2.xmit_key = s.xmit_key := rfl
    rw [hxmit, hkey, seqnbs_secure, if_pos h.key, h.next, List.length_append, List.length_singleton]
    exact (Wai.ofNat_succ 32 _).symm
  reserved := by
    intro e he pkt hpkt hrel
    rcases List.mem_append.1 he with he | he
    · exact h.reserved e he pkt hpkt hrel
    · rw [List.mem_singleton.1 he] at hpkt ⊢
      exact hdata pkt hpkt hrel

/-- Under a key which is new no packet has been enciphered. -/
theorem Numbered.deriveXmit (h : Numbered s) : Numbered s.deriveXmit where
  key := rfl
  depth := fun e he => le_trans (h.depth e he) (Nat.le_succ _)
  numbers := h.numbers
  next := by
    have hnone : s.deriveXmit.seqnbs s.xmit_key.rkey = [] := by
      rw [ScnxFull.seqnbs, List.map_eq_nil_iff, List.filter_eq_nil_iff]
      intro e he hkey
      have hdepth := h.depth e he
      rw [of_decide_eq_true hkey, Skey.depth_rkey] at hdepth
      omega
    have hkey : s.deriveXmit.xmit_key = s.xmit_key.rkey := rfl
    rw [hkey, hnone]
    rfl
  reserved := h.reserved

theorem Numbered.recvSecured (h : Numbered s) (pkt : Datum) :
    Numbered (s.recvSecured C pkt).2.2 := by
  rcases s.recvSecured_cases C pkt with
    ⟨err, pkt', heq, -⟩ | ⟨r, seqnb, ct, -, -, -, ⟨-, heq⟩ | ⟨-, -, heq⟩⟩
  · rw [heq]
    exact h
  · rw [heq]
    exact h.congr rfl rfl rfl rfl
  · rw [heq]
    exact h.congr rfl rfl rfl rfl

theorem Numbered.dispatch (h : Numbered s) (pkt : Datum) : Numbered (s.dispatch C pkt).2.2 := by
  rcases s.dispatch_cases C pkt with heq | ⟨nonce, rest, -, heq⟩ | ⟨rest, -, -, heq⟩
  · rw [heq]
    exact h
  · have hreply : Numbered (s.queueReply C nonce) := by
      have hsecure : Numbered (s.secure C (.rekeyReply nonce)).2 := by
        apply h.secure
        intro pkt hpkt
        cases hpkt
      exact hsecure.congr rfl rfl rfl rfl
    rw [heq]
    split_ifs
    · exact hreply
    · exact hreply.congr rfl rfl rfl rfl
  · rw [heq]
    exact h.deriveXmit

theorem Numbered.nullifyEstapkt (h : Numbered s) : Numbered s.nullifyEstapkt := by
  rw [ScnxFull.nullifyEstapkt]
  split_ifs
  · exact h.congr rfl rfl rfl rfl
  · exact h

theorem Numbered.pktFromLower (h : Numbered s) (pkt : Datum) :
    Numbered (s.pktFromLower C pkt).2.2 := by
  rcases s.pktFromLower_cases C pkt with ⟨_, _, -, -, heq | heq⟩ | ⟨pkt', s', hrecv, heq⟩
  · rw [heq]
    exact h
  · rw [heq]
    exact h.congr rfl rfl rfl rfl
  · have hs' := h.recvSecured (C := C) pkt
    rw [hrecv] at hs'
    rw [heq]
    exact hs'.nullifyEstapkt.dispatch pkt'

/-- A data packet is dropped in the reserved zone, unless the outer connection is reliable. -/
theorem Numbered.pktFromUpper (h : Numbered s) (nonce : Nonceid) (pkt : Datum) :
    Numbered (s.pktFromUpper C nonce pkt).2 := by
  rw [ScnxFull.pktFromUpper]
  split_ifs with hdrop hrekey
  · exact h
  all_goals
    have hroom : s.reliable_outter_cnx = false → s.full_xmit.seqnb < SEQNB_SIG_RESERVED := by
      intro hrel
      rw [hrel, Bool.not_false, and_iff_left rfl, BitVec.not_le] at hdrop
      exact hdrop
  · have hinit : Numbered (s.initiate nonce) := h.congr rfl rfl rfl rfl
    exact hinit.secure fun _ _ => hroom
  · exact h.secure fun _ _ => hroom

theorem Numbered.step (h : Numbered s) (e : ScnxEvent) : Numbered (s.step C e) := by
  cases e with
  | pktFromUpper nonce pkt => exact h.pktFromUpper nonce pkt
  | pktFromLower pkt => exact h.pktFromLower pkt
  | rxmitTimeout =>
    rw [ScnxFull.step, handle]
    split_ifs
    · have hsecure : Numbered (s.secure C (.rekeyRequest s.local_nonce)).2 := by
        apply h.secure
        intro pkt hpkt
        cases hpkt
      exact hsecure.congr rfl rfl rfl rfl
    · exact h
  | zerotimer => exact h.congr rfl rfl rfl rfl

theorem Numbered.always (C : Crypto) (is_itor_f reliable_outter_cnx : Bool)
    (estapkt_in estapkt_out : Datum) (evs : List ScnxEvent) :
    Always (ScnxFull.step C) Numbered
      (ScnxFull.start is_itor_f reliable_outter_cnx estapkt_in estapkt_out) evs := by
  apply always_invariant
  · intro s e h
    exact h.step e
  · exact Numbered.start _ _ _ _

/-- A number is used twice under a key when more packets than there are numbers have been
enciphered under it. -/
theorem Numbered.nodup_iff (h : Numbered s) :
    s.usedSeqnbs.Nodup ↔ ∀ key, (s.seqnbs key).length ≤ 2 ^ 32 := by
  rw [usedSeqnbs, nodup_map_pair_iff]
  apply forall_congr'
  intro key
  have hnumbers := h.numbers key
  rw [ScnxFull.seqnbs] at hnumbers ⊢
  rw [hnumbers, nodup_counterNumbers_iff, length_counterNumbers]

/-! ### Signalling is not data -/

/-- The signalling which the connection deals with: a request, or a reply during a rekeying. -/
def Handles (s : ScnxFull) : ScnxPlain → Prop
  | .data _ => False
  | .rekeyRequest _ => True
  | .rekeyReply _ => s.isInprogress = true

instance (s : ScnxFull) : (plain : ScnxPlain) → Decidable (s.Handles plain)
  | .data _ => inferInstanceAs (Decidable False)
  | .rekeyRequest _ => inferInstanceAs (Decidable True)
  | .rekeyReply _ => inferInstanceAs (Decidable (_ = _))

theorem local_nonce_recvSecured (C : Crypto) (s : ScnxFull) (pkt : Datum) :
    (s.recvSecured C pkt).2.2.local_nonce = s.local_nonce := by
  rcases s.recvSecured_cases C pkt with
    ⟨err, pkt', heq, -⟩ | ⟨r, seqnb, ct, -, -, -, ⟨-, heq⟩ | ⟨-, -, heq⟩⟩
  · rw [heq]
  · rw [heq]
    rfl
  · rw [heq]
    rfl

theorem isInprogress_nullifyEstapkt (s : ScnxFull) :
    s.nullifyEstapkt.isInprogress = s.isInprogress := by
  rw [nullifyEstapkt]
  split_ifs <;> rfl

/-- The signalling which the connection deals with is swallowed. -/
theorem dispatch_of_handles (h : s.Handles plain) : (s.dispatch C plain.toDatum).2.1 = [] := by
  cases plain with
  | data pkt => exact h.elim
  | rekeyRequest nonce =>
    have hread := Nonceid.read_append nonce []
    rw [List.append_nil] at hread
    simp only [dispatch, ScnxPlain.toDatum, recvRekeyRequest, hread, if_true]
    split_ifs <;> rfl
  | rekeyReply nonce =>
    have hread := Nonceid.read_append nonce []
    rw [List.append_nil] at hread
    have hin : s.isInprogress = true := h
    have hne : REKEY_REPLY ≠ REKEY_REQUEST := by decide
    simp only [dispatch, ScnxPlain.toDatum, recvRekeyReply, hne, if_false, if_true, hin,
      Bool.not_true, Bool.false_eq_true, List.tail_cons, hread]
    split_ifs <;> rfl

theorem toUpper_of_handles {pkt : Datum} (hok : (s.recvSecured C pkt).1 = .OK)
    (hplain : (s.recvSecured C pkt).2.1 = plain.toDatum) (h : s.Handles plain) :
    (s.handle C (.pktFromLower pkt)).1.toUpper = [] := by
  rcases s.pktFromLower_cases C pkt with ⟨err, pkt', hrecv, herr, -⟩ | ⟨pkt', s', hrecv, heq⟩
  · rw [hrecv] at hok
    exact absurd hok herr
  · have hnonce := local_nonce_recvSecured C s pkt
    rw [hrecv] at hplain hnonce
    have hin : s'.nullifyEstapkt.isInprogress = s.isInprogress := by
      rw [isInprogress_nullifyEstapkt, isInprogress, isInprogress, hnonce]
    have h' : s'.nullifyEstapkt.Handles plain := by
      cases plain with
      | data pkt => exact h
      | rekeyRequest nonce => exact h
      | rekeyReply nonce => exact hin.trans h
    have hpkt : pkt' = plain.toDatum := hplain
    simp only [handle, heq, hpkt, dispatch_of_handles h', ne_eq, not_true_eq_false, and_false,
      if_false]

/-- **Numbers and signalling**: in every run the packets under a key carry 0, 1, 2 and so on modulo
`2 ^ 32`, so that no number is used twice under it exactly as long as no more than `2 ^ 32` packets
are; on an unreliable outer connection the last numbers are not for data; and no request, and no
reply during a rekeying, is handed to the upper layer. -/
theorem seqnb_safe (C : Crypto) (is_itor_f reliable_outter_cnx : Bool)
    (estapkt_in estapkt_out : Datum) (evs : List ScnxEvent) :
    Always (ScnxFull.step C)
      (fun s => (∀ key, s.seqnbs key = counterNumbers 32 (s.seqnbs key).length) ∧
        (s.usedSeqnbs.Nodup ↔ ∀ key, (s.seqnbs key).length ≤ 2 ^ 32) ∧
        (s.reliable_outter_cnx = false → ∀ e ∈ s.enciphered, ∀ pkt, e.plain = .data pkt →
          e.seqnb < SEQNB_SIG_RESERVED) ∧
        ∀ pkt plain, (s.recvSecured C pkt).1 = .OK → (s.recvSecured C pkt).2.1 = plain.toDatum →
          s.Handles plain → (s.handle C (.pktFromLower pkt)).1.toUpper = [])
      (ScnxFull.start is_itor_f reliable_outter_cnx estapkt_in estapkt_out) evs := by
  refine (Numbered.always C _ _ _ _ evs).mono ?_
  intro s h
  refine ⟨h.numbers, h.nodup_iff, fun hrel e he pkt hpkt => h.reserved e he pkt hpkt hrel, ?_⟩
  intro pkt plain hok hplain hhandles
  exact toUpper_of_handles hok hplain hhandles

theorem seqnb_safe_request :
    ((ScnxFull.start true false [] []).handle sampleCrypto (.pktFromLower
      (Enciphered.pkt sampleCrypto
        ⟨directionKey false, 5, .rekeyRequest ⟨[1, 2, 3, 4, 5, 6, 7, 8], rfl⟩⟩))).1.toUpper = [] :=
  (seqnb_safe sampleCrypto true false [] [] []).head.2.2.2 _
    (.rekeyRequest ⟨[1, 2, 3, 4, 5, 6, 7, 8], rfl⟩) (by decide) (by decide) trivial

/-! ### A counter which wraps -/

/-- On a reliable outer connection each data packet is enciphered. -/
theorem length_seqnbs_pktFromUpper (C : Crypto) (nonce : Nonceid) (pkt : Datum)
    (hrel : s.reliable_outter_cnx = true) :
    (s.pktFromUpper C nonce pkt).2.reliable_outter_cnx = true ∧
      (s.pktFromUpper C nonce pkt).2.full_xmit.base_key = s.full_xmit.base_key ∧
      ((s.pktFromUpper C nonce pkt).2.seqnbs s.full_xmit.base_key).length =
        (s.seqnbs s.full_xmit.base_key).length + 1 := by
  rw [pktFromUpper]
  split_ifs with hdrop hrekey
  · rw [hrel] at hdrop
    exact absurd hdrop.2 (by decide)
  · refine ⟨hrel, rfl, ?_⟩
    have hxmit : (s.initiate nonce).full_xmit = s.full_xmit := rfl
    rw [seqnbs_secure, hxmit, if_pos rfl, List.length_append, List.length_singleton]
    rfl
  · refine ⟨hrel, rfl, ?_⟩
    rw [seqnbs_secure, if_pos rfl, List.length_append, List.length_singleton]

theorem length_seqnbs_replicate (C : Crypto) (nonce : Nonceid) (pkt : Datum) (n : ℕ)
    (hrel : s.reliable_outter_cnx = true) :
    ((run (ScnxFull.step C) s (List.replicate n (.pktFromUpper nonce pkt))).seqnbs
      s.full_xmit.base_key).length = (s.seqnbs s.full_xmit.base_key).length + n := by
  induction n generalizing s with
  | zero => rfl
  | succ n ih =>
    obtain ⟨hrel', hkey, hlen⟩ := length_seqnbs_pktFromUpper C nonce pkt hrel
    have hstep := ih hrel'
    rw [hkey, hlen] at hstep
    rw [List.replicate_succ, run_cons]
    exact hstep.trans (by omega)

/-- As many packets as one likes on a connection which starts. -/
theorem length_seqnbs_start (nonce : Nonceid) (n : ℕ) :
    ((run (ScnxFull.step sampleCrypto) (ScnxFull.start true true [] [])
      (List.replicate n (.pktFromUpper nonce [0]))).seqnbs (directionKey true)).length = n := by
  have h := length_seqnbs_replicate sampleCrypto nonce [0] n (s := ScnxFull.start true true [] [])
    rfl
  exact h.trans (Nat.zero_add n)

/-- A run of one data packet more than there are numbers uses a number twice, and a reply which
comes when no rekeying is in progress is handed to the upper layer. -/
theorem not_seqnb_safe :
    ¬(run (ScnxFull.step sampleCrypto) (ScnxFull.start true true [] [])
        (List.replicate (2 ^ 32 + 1)
          (.pktFromUpper ⟨[1, 2, 3, 4, 5, 6, 7, 8], rfl⟩ [0]))).usedSeqnbs.Nodup ∧
      ((ScnxFull.start true true [] []).handle sampleCrypto (.pktFromLower
        (Enciphered.pkt sampleCrypto
          ⟨directionKey false, 5, .rekeyReply ⟨[1, 2, 3, 4, 5, 6, 7, 8], rfl⟩⟩))).1.toUpper =
        [(ScnxPlain.rekeyReply ⟨[1, 2, 3, 4, 5, 6, 7, 8], rfl⟩).toDatum] := by
  constructor
  · intro hnodup
    have hnumbered := (Numbered.always sampleCrypto true true [] []
      (List.replicate (2 ^ 32 + 1) (.pktFromUpper ⟨[1, 2, 3, 4, 5, 6, 7, 8], rfl⟩ [0]))).run
    have hle := hnumbered.nodup_iff.1 hnodup (directionKey true)
    rw [length_seqnbs_start] at hle
    omega
  · decide

end ScnxFull

end Neoip
