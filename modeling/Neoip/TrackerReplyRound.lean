/-
Neoip/TrackerReplyRound.lean

What `from_bencode` makes of a reply, and of any bytes.

The peers are read back in the order of the list, whatever their shape: each
one is fully qualified, so that none is discarded.  Only the list of maps has
their identifiers, and only if the request does not say `nopeerid`.

Main result: `reply_codec`.
-/
import Mathlib.Data.List.TakeWhile
import Neoip.TrackerReply

namespace Neoip

/-! ### Addresses -/

section Address

variable {inet_addr : Datum → UInt32} {v4_addr : UInt32} {c : UInt8}

theorem ne_zero_of_mem_decimal {n : ℕ} (h : c ∈ Bencode.decimal n) : c ≠ 0 := by
  rintro rfl
  exact absurd (Bencode.isDigit_decimal h) (by decide)

theorem ne_zero_of_mem_inetNtoa (h : c ∈ inetNtoa v4_addr) : c ≠ 0 := by
  have hdot : (46 : UInt8) ≠ 0 := by decide
  simp only [inetNtoa, List.mem_append, List.mem_cons] at h
  rcases h with h | rfl | h | rfl | h | rfl | h
  · exact ne_zero_of_mem_decimal h
  · exact hdot
  · exact ne_zero_of_mem_decimal h
  · exact hdot
  · exact ne_zero_of_mem_decimal h
  · exact hdot
  · exact ne_zero_of_mem_decimal h

theorem inetNtoa_bcast : inetNtoa 0xFFFFFFFF = bcastString := rfl

/-- The address of a peer is read back from its string. -/
theorem ipOfString_inetNtoa (hinet : ∀ v4_addr, inet_addr (inetNtoa v4_addr) = v4_addr)
    (hne : v4_addr ≠ 0xFFFFFFFF) : ipOfString inet_addr (inetNtoa v4_addr) = some v4_addr := by
  have hcstr : (inetNtoa v4_addr).takeWhile (· ≠ 0) = inetNtoa v4_addr :=
    List.takeWhile_eq_self_iff.2 fun c hc => decide_eq_true (ne_zero_of_mem_inetNtoa hc)
  have hbcast : inetNtoa v4_addr ≠ bcastString := by
    intro heq
    have haddr := hinet v4_addr
    rw [heq, ← inetNtoa_bcast, hinet] at haddr
    exact hne haddr.symm
  rw [ipOfString, hcstr, inetAton, if_neg hbcast, hinet, if_neg hne]

end Address

namespace TrackerPeer

/-- A fully qualified address is one of version 4, and not the one of broadcast. -/
theorem exists_v4Addr (peer : TrackerPeer) :
    ∃ v4_addr, peer.ipport.ipaddr = some v4_addr ∧ v4_addr ≠ 0xFFFFFFFF := by
  have h := peer.fully_qualified
  cases haddr : peer.ipport.ipaddr with
  | none =>
    rw [IpportAddr.isFullyQualified, haddr] at h
    cases h
  | some v4_addr =>
    refine ⟨v4_addr, rfl, ?_⟩
    rintro rfl
    rw [IpportAddr.isFullyQualified, haddr] at h
    cases h

/-- The peer without its identifier. -/
def dropId (peer : TrackerPeer) : TrackerPeer := { peer with peerid := BtId.null }

end TrackerPeer

namespace TrackerReply

section Peers

variable {inet_addr : Datum → UInt32} {sha1 : Datum → BtId} {request : TrackerRequest}
  {reply : TrackerReply}

theorem addPeer_peer (peer : TrackerPeer) (peerid : BtId) (peer_arr : List TrackerPeer) :
    addPeer peer.ipport peerid peer_arr = { peer with peerid } :: peer_arr :=
  dif_pos peer.fully_qualified

/-! ### The compact string -/

theorem parseCompact_peerBytes (peer : TrackerPeer) (bytearray : Datum) :
    parseCompact (peerBytes peer ++ bytearray)
      = (parseCompact bytearray).map (peer.dropId :: ·) := by
  obtain ⟨v4_addr, haddr, -⟩ := peer.exists_v4Addr
  have hip : UInt32.ofNat (GenId.ofBytes (GenId.bytesOf 4 v4_addr.toNat)) = v4_addr := by
    have hmod : v4_addr.toNat % 256 ^ 4 = v4_addr.toNat := Nat.mod_eq_of_lt v4_addr.toNat_lt
    rw [GenId.ofBytes_bytesOf, hmod, UInt32.ofNat_toNat]
  have hport : UInt16.ofNat (GenId.ofBytes (GenId.bytesOf 2 peer.ipport.port.toNat))
      = peer.ipport.port := by
    have hmod : peer.ipport.port.toNat % 256 ^ 2 = peer.ipport.port.toNat :=
      Nat.mod_eq_of_lt peer.ipport.port.toNat_lt
    rw [GenId.ofBytes_bytesOf, hmod, UInt16.ofNat_toNat]
  have hturn : parseCompact (peerBytes peer ++ bytearray) = (parseCompact bytearray).map
      (addPeer ⟨some (UInt32.ofNat (GenId.ofBytes (GenId.bytesOf 4 (peer.ipport.ipaddr.getD 0).toNat))),
        UInt16.ofNat (GenId.ofBytes (GenId.bytesOf 2 peer.ipport.port.toNat))⟩ BtId.null) := by
    cases hread : parseCompact bytearray with
    | none =>
      show (parseCompact bytearray).bind _ = _
      rw [hread]
      rfl
    | some peer_arr =>
      show (parseCompact bytearray).bind _ = _
      rw [hread]
      rfl
  rw [hturn, haddr, Option.getD_some, hip, hport, ← haddr]
  congr 1
  funext peer_arr
  exact addPeer_peer peer BtId.null peer_arr

/-- The compact peers are read back, without their identifiers. -/
theorem parseCompact_flatMap (peer_arr : List TrackerPeer) :
    parseCompact (peer_arr.flatMap peerBytes) = some (peer_arr.map TrackerPeer.dropId) := by
  induction peer_arr with
  | nil => rfl
  | cons peer peer_arr ih =>
    rw [List.flatMap_cons, parseCompact_peerBytes, ih]
    rfl

/-- A string is read when it is made of whole peers. -/
theorem parseCompact_isSome (str : Datum) : (parseCompact str).isSome ↔ 6 ∣ str.length := by
  induction str using parseCompact.induct with
  | case1 => exact iff_of_true rfl (Nat.dvd_zero 6)
  | case2 a b c d p q bytearray ih =>
    have hturn : (parseCompact (a :: b :: c :: d :: p :: q :: bytearray)).isSome
        = (parseCompact bytearray).isSome := by
      rw [parseCompact]
      cases parseCompact bytearray
      · rfl
      · rfl
    rw [hturn, ih]
    exact (Nat.dvd_add_self_right).symm
  | case3 str hnil hpeer =>
    have hread : parseCompact str = none := by
      rw [parseCompact]
      · exact hnil
      · exact hpeer
    rw [hread]
    refine iff_of_false (by simp) fun ⟨k, hk⟩ => ?_
    match str, hk with
    | [], _ => exact hnil rfl
    | [_], hk => simp only [List.length_cons, List.length_nil] at hk; omega
    | [_, _], hk => simp only [List.length_cons, List.length_nil] at hk; omega
    | [_, _, _], hk => simp only [List.length_cons, List.length_nil] at hk; omega
    | [_, _, _, _], hk => simp only [List.length_cons, List.length_nil] at hk; omega
    | [_, _, _, _, _], hk => simp only [List.length_cons, List.length_nil] at hk; omega
    | a :: b :: c :: d :: p :: q :: bytearray, _ => exact hpeer a b c d p q bytearray rfl

/-! ### The list of maps -/

theorem ofInt_port (port : UInt16) : UInt16.ofInt (port.toNat : ℤ) = port := by
  have hlt := port.toNat_lt
  have hmod : ((port.toNat : ℤ) % 2 ^ 16).toNat = port.toNat := by omega
  rw [UInt16.ofInt, hmod, UInt16.ofNat_toNat]

theorem parsePeer_peerDvar (hinet : ∀ v4_addr, inet_addr (inetNtoa v4_addr) = v4_addr)
    (peer : TrackerPeer) : parsePeer inet_addr sha1 (peerDvar request peer)
      = some (peer.ipport, if request.nopeerid then BtId.null else peer.peerid) := by
  obtain ⟨v4_addr, haddr, hne⟩ := peer.exists_v4Addr
  have hip : ipOfString inet_addr (ipToString peer.ipport.ipaddr) = peer.ipport.ipaddr := by
    rw [haddr]
    exact ipOfString_inetNtoa hinet hne
  have hid : BtId.ofDatum sha1 peer.peerid.1 = peer.peerid := dif_pos peer.peerid.2
  rw [peerDvar_eq]
  cases request.nopeerid with
  | true =>
    show some ((⟨ipOfString inet_addr (ipToString peer.ipport.ipaddr),
      UInt16.ofInt (peer.ipport.port.toNat : ℤ)⟩ : IpportAddr), BtId.null) = _
    rw [hip, ofInt_port]
    rfl
  | false =>
    show some ((⟨ipOfString inet_addr (ipToString peer.ipport.ipaddr),
      UInt16.ofInt (peer.ipport.port.toNat : ℤ)⟩ : IpportAddr),
        BtId.ofDatum sha1 peer.peerid.1) = _
    rw [hip, ofInt_port, hid]
    rfl

theorem parsePeerArr_map (hinet : ∀ v4_addr, inet_addr (inetNtoa v4_addr) = v4_addr)
    (peer_arr : List TrackerPeer) :
    parsePeerArr inet_addr sha1 (peer_arr.map (peerDvar request)) = some (peer_arr.map fun peer =>
      if request.nopeerid then peer.dropId else peer) := by
  induction peer_arr with
  | nil => rfl
  | cons peer peer_arr ih =>
    rw [List.map_cons, parsePeerArr, parsePeer_peerDvar hinet, ih]
    show some (addPeer peer.ipport _ _) = _
    rw [addPeer_peer, List.map_cons]
    cases request.nopeerid
    · rfl
    · rfl

/-- **The peers are read back**, whatever the shape. -/
theorem dvarToPeerArr_peerArrToDvar (hinet : ∀ v4_addr, inet_addr (inetNtoa v4_addr) = v4_addr)
    (peer_arr : List TrackerPeer) :
    dvarToPeerArr inet_addr sha1 (peerArrToDvar peer_arr request) = peer_arr.map fun peer =>
      if request.compact || request.nopeerid then peer.dropId else peer := by
  unfold peerArrToDvar
  cases request.compact with
  | true =>
    show (parseCompact (peer_arr.flatMap peerBytes)).getD [] = _
    rw [parseCompact_flatMap]
    rfl
  | false =>
    show (parsePeerArr inet_addr sha1 (peer_arr.map (peerDvar request))).getD [] = _
    rw [parsePeerArr_map hinet]
    rfl

end Peers

/-! ### The reply -/

/-- What a reply which is no failure keeps: its period in whole seconds, its counts, and its
peers, with their identifiers when the request wants them. -/
structure Preserves (request : TrackerRequest) (reply decoded : TrackerReply) : Prop where
  failure_reason : decoded.failure_reason = reply.failure_reason
  request_period :
    decoded.request_period.toNat = (reply.request_period.toNat + 500) / 1000 * 1000
  nb_seeder : decoded.nb_seeder = reply.nb_seeder
  nb_leecher : decoded.nb_leecher = reply.nb_leecher
  ipport : decoded.peer_arr.map TrackerPeer.ipport = reply.peer_arr.map TrackerPeer.ipport
  peerid : decoded.peer_arr.map TrackerPeer.peerid =
    if request.compact || request.nopeerid then reply.peer_arr.map fun _ => BtId.null
    else reply.peer_arr.map TrackerPeer.peerid

/-- A failure has nothing else, and another reply has a period; the peers are fully qualified in
any case. -/
structure WellFormed (reply : TrackerReply) : Prop where
  failure : reply.failure_reason ≠ [] → reply.request_period = Delay.NONE_VAL ∧ reply.peer_arr = []
  period : reply.failure_reason = [] → reply.request_period ≠ Delay.NONE_VAL

section Reply

variable {inet_addr : Datum → UInt32} {sha1 : Datum → BtId} {request : TrackerRequest}
  {reply : TrackerReply}

theorem ofInt64_natCast (n : ℕ) : Metainfo.ofInt64 n = UInt64.ofNat n := by
  apply UInt64.toBitVec_inj.1
  show BitVec.ofInt 64 (n : ℤ) = BitVec.ofNat 64 n
  exact BitVec.ofInt_natCast 64 n

/-- The seconds are right when 32 bits are enough for them. -/
theorem toNat_fromSec_toSec32bit {val_ms : UInt64} (h : val_ms.toNat + 500 < 2 ^ 32 * 1000) :
    (fromSec (Metainfo.ofInt64 (toSec32bit val_ms).toNat)).toNat
      = (val_ms.toNat + 500) / 1000 * 1000 := by
  have hadd : (val_ms + 500).toNat = val_ms.toNat + 500 := by
    rw [UInt64.toNat_add, show (500 : UInt64).toNat = 500 from rfl]
    exact Nat.mod_eq_of_lt (by omega)
  have hdiv : ((val_ms + 500) / 1000).toNat = (val_ms.toNat + 500) / 1000 := by
    rw [UInt64.toNat_div, hadd]
    rfl
  have hsec : (toSec32bit val_ms).toNat = (val_ms.toNat + 500) / 1000 := by
    rw [toSec32bit, UInt64.toNat_toUInt32, hdiv]
    exact Nat.mod_eq_of_lt (by omega)
  rw [hsec, ofInt64_natCast, fromSec, UInt64.toNat_mul, UInt64.toNat_ofNat']
  show (val_ms.toNat + 500) / 1000 % 2 ^ 64 * 1000 % 2 ^ 64 = _
  omega

/-- No number of seconds is the delay which is none, which is odd. -/
theorem fromSec_ne (sec : UInt64) : fromSec sec ≠ Delay.NONE_VAL := by
  intro h
  have htoNat := congrArg UInt64.toNat h
  rw [fromSec, UInt64.toNat_mul] at htoNat
  have hmod : sec.toNat * 1000 % 2 ^ 64 = 0xFFFFFFFFFFFFFFF := htoNat
  omega

theorem ofDvar_failure (h : reply.failure_reason ≠ []) :
    ofDvar inet_addr sha1 (reply.replyDvar request)
      = { null with failure_reason := reply.failure_reason } := by
  rw [replyDvar_failure h]
  rfl

/-- **What a reply which is no failure becomes.** -/
theorem ofDvar_peers (hinet : ∀ v4_addr, inet_addr (inetNtoa v4_addr) = v4_addr)
    (h : reply.failure_reason = []) : ofDvar inet_addr sha1 (reply.replyDvar request) = {
      failure_reason := []
      request_period := fromSec (Metainfo.ofInt64 (toSec32bit reply.request_period).toNat)
      nb_seeder := reply.nb_seeder
      nb_leecher := reply.nb_leecher
      peer_arr := reply.peer_arr.map fun peer =>
        if request.compact || request.nopeerid then peer.dropId else peer } := by
  rw [replyDvar_peers h, ← dvarToPeerArr_peerArrToDvar hinet]
  show TrackerReply.mk [] _ (Metainfo.ofInt64 reply.nb_seeder.toInt64.toInt)
    (Metainfo.ofInt64 reply.nb_leecher.toInt64.toInt) _ = _
  rw [Metainfo.ofInt64_toInt, Metainfo.ofInt64_toInt]
  rfl

theorem preserves (hinet : ∀ v4_addr, inet_addr (inetNtoa v4_addr) = v4_addr)
    (h : reply.failure_reason = []) (hperiod : reply.request_period.toNat + 500 < 2 ^ 32 * 1000)
    (hfit : reply.StringsFit request) :
    Preserves request reply (fromBencode inet_addr sha1 (reply.toBencode request)) := by
  rw [fromBencode_eq hfit, ofDvar_peers hinet h]
  refine ⟨h.symm, toNat_fromSec_toSec32bit hperiod, rfl, rfl, ?_, ?_⟩
  · rw [List.map_map]
    refine List.map_congr_left fun peer _ => ?_
    show (if _ then peer.dropId else peer).ipport = peer.ipport
    split_ifs
    · rfl
    · rfl
  · rw [List.map_map]
    cases request.compact || request.nopeerid
    · rfl
    · rfl

/-- **Any variable** becomes a null reply or a well formed one. -/
theorem ofDvar_isNull_or (dvar : Dvar) : (ofDvar inet_addr sha1 dvar).isNull = true
    ∨ (ofDvar inet_addr sha1 dvar).WellFormed := by
  cases dvar with
  | integer value => exact .inl rfl
  | string str => exact .inl rfl
  | array arr => exact .inl rfl
  | map reply_dvar =>
    rw [ofDvar]
    cases hfailure : Dvar.getStr keyFailureReason reply_dvar with
    | some failure_reason =>
      cases failure_reason with
      | nil => exact .inl rfl
      | cons c failure_reason => exact .inr ⟨fun _ => ⟨rfl, rfl⟩, by simp⟩
    | none =>
      cases hpeers : Dvar.find keyPeers reply_dvar with
      | none => exact .inl rfl
      | some peers_dvar =>
        refine .inr ⟨fun h => absurd rfl h, fun _ => ?_⟩
        dsimp only [parseReply]
        cases Dvar.getInt keyInterval reply_dvar with
        | some sec => exact fromSec_ne _
        | none => exact fromSec_ne _

theorem fromBencode_isNull_or (datum : Datum) : (fromBencode inet_addr sha1 datum).isNull = true
    ∨ (fromBencode inet_addr sha1 datum).WellFormed := by
  rw [fromBencode]
  cases Bencode.toDvar datum with
  | none => exact .inl rfl
  | some dvar => exact ofDvar_isNull_or dvar

/-- A compact string which is not made of whole peers gives none. -/
theorem peer_arr_of_not_dvd {datum str : Datum} {reply_dvar : List (Datum × Dvar)}
    (hread : Bencode.toDvar datum = some (.map reply_dvar))
    (hpeers : Dvar.find keyPeers reply_dvar = some (.string str)) (hlen : ¬ 6 ∣ str.length) :
    (fromBencode inet_addr sha1 datum).peer_arr = [] := by
  have hnone : parseCompact str = none := by
    rw [← Option.not_isSome_iff_eq_none, parseCompact_isSome]
    exact hlen
  rw [fromBencode, hread]
  show (ofDvar inet_addr sha1 (.map reply_dvar)).peer_arr = []
  rw [ofDvar]
  cases hfailure : Dvar.getStr keyFailureReason reply_dvar with
  | some failure_reason => rfl
  | none =>
    rw [hpeers]
    show (parseCompact str).getD [] = []
    rw [hnone]
    rfl

end Reply

section Dotted

/-- So many numbers, with a character behind each. -/
def readDotted : ℕ → ℕ → Datum → ℕ
  | 0, val, _ => val
  | k + 1, val, str =>
    let (n, str) := Bencode.readDigits 0 str
    readDotted k (val * 256 + n) str.tail

/-- `inet_addr` on the addresses of four decimal numbers. -/
def inetAddr (name_str : Datum) : UInt32 := UInt32.ofNat (readDotted 4 0 name_str)

theorem readDotted_dot (k val n : ℕ) (str : Datum) :
    readDotted (k + 1) val (Bencode.decimal n ++ 46 :: str) = readDotted k (val * 256 + n) str := by
  have hread : Bencode.readDigits 0 (Bencode.decimal n ++ 46 :: str) = (n, 46 :: str) :=
    Bencode.readDigits_decimal rfl
  rw [readDotted, hread]
  rfl

theorem readDotted_last (val n : ℕ) : readDotted 1 val (Bencode.decimal n) = val * 256 + n := by
  have hread : (Bencode.readDigits 0 (Bencode.decimal n)).1 = n :=
    (Bencode.decimalAux_spec n.lt_succ_self).2.1
  show val * 256 + (Bencode.readDigits 0 (Bencode.decimal n)).1 = _
  rw [hread]

theorem inetAddr_inetNtoa (v4_addr : UInt32) : inetAddr (inetNtoa v4_addr) = v4_addr := by
  have hlt := v4_addr.toNat_lt
  have hval : (((0 * 256 + v4_addr.toNat / 2 ^ 24) * 256 + v4_addr.toNat / 2 ^ 16 % 256) * 256
      + v4_addr.toNat / 2 ^ 8 % 256) * 256 + v4_addr.toNat % 256 = v4_addr.toNat := by omega
  rw [inetAddr, inetNtoa, readDotted_dot, readDotted_dot, readDotted_dot, readDotted_last, hval,
    UInt32.ofNat_toNat]

/-- A reply with two peers. -/
def sampleReply : TrackerReply :=
  ⟨[], 1500, 1, 1, [⟨⟨some 0x0A000001, 6881⟩, ⟨List.replicate 20 1, rfl⟩, rfl⟩,
    ⟨⟨some 0x0A000002, 6882⟩, ⟨List.replicate 20 2, rfl⟩, rfl⟩]⟩

end Dotted

end TrackerReply

end Neoip
