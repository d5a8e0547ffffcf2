/-
Neoip/TrackerReply.lean

The reply of a tracker: `bt_tracker_reply_t`, `to_bencode` and `from_bencode`.

There are three shapes: a failure has its reason only; another reply has the
period of the requests, the counts, and its peers, as a string of 6 bytes each
when the request is compact, else as a list of maps.  The period is sent in
seconds, as a `uint32_t`.

`inet_addr`, of the system, is a parameter, which gives an address in local
order.  The assertions are not compiled in.  The counts of a reply which is
made are not initialised: they are 0 here, and only those which were read
matter.

Main results: `fromBencode_toBencode`, what a reply becomes, `wellFormed`, what
any bytes become, and from them `decodes`.
-/
import Neoip.Delay
import Neoip.GenId
import Neoip.PeersrcUtpex

namespace Neoip

/-- `bt_tracker_request_t`, with what `to_bencode` reads of it. -/
structure TrackerRequest where
  compact : Bool
  nopeerid : Bool

/-- `bt_tracker_peer_t`, less its flags.  The constructor asserts that the address is fully
qualified. -/
structure TrackerPeer where
  ipport : IpportAddr
  peerid : BtId
  fully_qualified : ipport.isFullyQualified = true

/-- `bt_tracker_reply_t`, with its period in milliseconds. -/
structure TrackerReply where
  failure_reason : Datum
  request_period : UInt64
  nb_seeder : UInt64
  nb_leecher : UInt64
  peer_arr : List TrackerPeer

/-! ### Delays, identifiers and addresses -/

/-- `to_sec_32bit`. -/
def toSec32bit (val_ms : UInt64) : UInt32 := ((val_ms + 500) / 1000).toUInt32

def fromSec (sec : UInt64) : UInt64 := sec * 1000

def fromMin (min : UInt64) : UInt64 := fromSec (min * 60)

/-- The null `bt_id_t`. -/
def BtId.null : BtId := ⟨List.replicate 20 0, length_zeros⟩

/-- `inet_ntoa`. -/
def inetNtoa (v4_addr : UInt32) : Datum :=
  Bencode.decimal (v4_addr.toNat / 2 ^ 24) ++ 46 ::
    (Bencode.decimal (v4_addr.toNat / 2 ^ 16 % 256) ++ 46 ::
      (Bencode.decimal (v4_addr.toNat / 2 ^ 8 % 256) ++ 46 ::
        Bencode.decimal (v4_addr.toNat % 256)))

/-- `ip_addr_t::to_string`. -/
def ipToString : Option UInt32 → Datum
  | none => [110, 117, 108, 108]
  | some v4_addr => inetNtoa v4_addr

/-- `255.255.255.255`. -/
def bcastString : Datum := [50, 53, 53, 46, 50, 53, 53, 46, 50, 53, 53, 46, 50, 53, 53]

/-- `inet_oswarp_t::inet_aton`. -/
def inetAton (inet_addr : Datum → UInt32) (name_str : Datum) : Option UInt32 :=
  if name_str = bcastString then some 0xFFFFFFFF
  else if inet_addr name_str = 0xFFFFFFFF then none
  else some (inet_addr name_str)

/-- The constructor of `ip_addr_t` from a string, which goes through a C string. -/
def ipOfString (inet_addr : Datum → UInt32) (ip_addr_str : Datum) : Option UInt32 :=
  inetAton inet_addr (ip_addr_str.takeWhile (· ≠ 0))

namespace TrackerReply

/-- `complete`. -/
def keyComplete : Datum := [99, 111, 109, 112, 108, 101, 116, 101]

/-- `failure reason`. -/
def keyFailureReason : Datum :=
  [102, 97, 105, 108, 117, 114, 101, 32, 114, 101, 97, 115, 111, 110]

/-- `incomplete`. -/
def keyIncomplete : Datum := [105, 110, 99, 111, 109, 112, 108, 101, 116, 101]

/-- `interval`. -/
def keyInterval : Datum := [105, 110, 116, 101, 114, 118, 97, 108]

/-- `ip`. -/
def keyIp : Datum := [105, 112]

/-- `peer id`. -/
def keyPeerId : Datum := [112, 101, 101, 114, 32, 105, 100]

/-- `peers`. -/
def keyPeers : Datum := [112, 101, 101, 114, 115]

/-- `port`. -/
def keyPort : Datum := [112, 111, 114, 116]

/-- `bt_tracker_reply_t()`. -/
def null : TrackerReply := ⟨[], Delay.NONE_VAL, 0, 0, []⟩

def isNull (reply : TrackerReply) : Bool :=
  reply.request_period = Delay.NONE_VAL && reply.failure_reason.isEmpty

/-! ### `to_bencode` -/

/-- The map of a peer. -/
def peerDvar (request : TrackerRequest) (peer : TrackerPeer) : Dvar :=
  let peer_dvar := Dvar.mapInsert keyPort (.integer peer.ipport.port.toNat)
    (Dvar.mapInsert keyIp (.string (ipToString peer.ipport.ipaddr)) [])
  .map (if request.nopeerid then peer_dvar
    else Dvar.mapInsert keyPeerId (.string peer.peerid.1) peer_dvar)

def peerArrToDvarNocompact (peer_arr : List TrackerPeer) (request : TrackerRequest) : Dvar :=
  .array (peer_arr.map (peerDvar request))

/-- The 6 bytes of a peer, which has an address of version 4. -/
def peerBytes (peer : TrackerPeer) : Datum :=
  GenId.bytesOf 4 (peer.ipport.ipaddr.getD 0).toNat ++ GenId.bytesOf 2 peer.ipport.port.toNat

def peerArrToDvarDocompact (peer_arr : List TrackerPeer) : Dvar :=
  .string (peer_arr.flatMap peerBytes)

def peerArrToDvar (peer_arr : List TrackerPeer) (request : TrackerRequest) : Dvar :=
  if request.compact then peerArrToDvarDocompact peer_arr
  else peerArrToDvarNocompact peer_arr request

def replyDvar (reply : TrackerReply) (request : TrackerRequest) : Dvar :=
  .map (if reply.failure_reason ≠ [] then
      Dvar.mapInsert keyFailureReason (.string reply.failure_reason) []
    else
      Dvar.mapInsert keyPeers (peerArrToDvar reply.peer_arr request)
        (Dvar.mapInsert keyIncomplete (Metainfo.intDvar reply.nb_leecher)
          (Dvar.mapInsert keyComplete (Metainfo.intDvar reply.nb_seeder)
            (Dvar.mapInsert keyInterval (.integer (toSec32bit reply.request_period).toNat) []))))

def toBencode (reply : TrackerReply) (request : TrackerRequest) : Datum :=
  Bencode.fromDvar (reply.replyDvar request)

/-! ### `from_bencode` -/

/-- A peer is discarded when its address is not fully qualified. -/
def addPeer (ipport : IpportAddr) (peerid : BtId) (peer_arr : List TrackerPeer) :
    List TrackerPeer :=
  if h : ipport.isFullyQualified = true then ⟨ipport, peerid, h⟩ :: peer_arr else peer_arr

section Decoder

variable (inet_addr : Datum → UInt32) (sha1 : Datum → BtId)

/-- An item of the list: none when a field is missing or of another type. -/
def parsePeer : Dvar → Option (IpportAddr × BtId)
  | .map dvar => do
    let ip ← Dvar.getStr keyIp dvar
    let port ← Dvar.getInt keyPort dvar
    let peerid ← match Dvar.find keyPeerId dvar with
      | none => some BtId.null
      | some (.string str) => some (BtId.ofDatum sha1 str)
      | some _ => none
    some (⟨ipOfString inet_addr ip, UInt16.ofInt port⟩, peerid)
  | _ => none

def parsePeerArr : List Dvar → Option (List TrackerPeer)
  | [] => some []
  | dvar :: arr => do
    let (ipport, peerid) ← parsePeer inet_addr sha1 dvar
    let peer_arr ← parsePeerArr arr
    some (addPeer ipport peerid peer_arr)

def dvarToPeerArrNocompact (arr : List Dvar) : List TrackerPeer :=
  (parsePeerArr inet_addr sha1 arr).getD []

/-- Addresses and ports, until the bytes are read.  None when there are too few for the last
one. -/
def parseCompact : Datum → Option (List TrackerPeer)
  | [] => some []
  | a :: b :: c :: d :: p :: q :: bytearray => do
    let peer_arr ← parseCompact bytearray
    let ipaddr := UInt32.ofNat (GenId.ofBytes [a, b, c, d])
    let port := UInt16.ofNat (GenId.ofBytes [p, q])
    some (addPeer ⟨some ipaddr, port⟩ BtId.null peer_arr)
  | _ => none

def dvarToPeerArrDocompact (str : Datum) : List TrackerPeer := (parseCompact str).getD []

def dvarToPeerArr : Dvar → List TrackerPeer
  | .array arr => dvarToPeerArrNocompact inet_addr sha1 arr
  | .string str => dvarToPeerArrDocompact str
  | _ => []

/-- What is built when there is no error. -/
def parseReply (reply_dvar : List (Datum × Dvar)) (peers_dvar : Dvar) : TrackerReply where
  failure_reason := []
  request_period := match Dvar.getInt keyInterval reply_dvar with
    | some sec => fromSec (Metainfo.ofInt64 sec)
    | none => fromMin 42
  nb_seeder := ((Dvar.getInt keyComplete reply_dvar).map Metainfo.ofInt64).getD 0
  nb_leecher := ((Dvar.getInt keyIncomplete reply_dvar).map Metainfo.ofInt64).getD 0
  peer_arr := dvarToPeerArr inet_addr sha1 peers_dvar

def ofDvar : Dvar → TrackerReply
  | .map reply_dvar =>
    match Dvar.getStr keyFailureReason reply_dvar, Dvar.find keyPeers reply_dvar with
    | some failure_reason, _ => { null with failure_reason }
    | none, some peers_dvar => parseReply inet_addr sha1 reply_dvar peers_dvar
    | none, none => null
  | _ => null

def fromBencode (datum : Datum) : TrackerReply :=
  match Bencode.toDvar datum with
  | some reply_dvar => ofDvar inet_addr sha1 reply_dvar
  | none => null

end Decoder

/-! ### The replies which are built -/

section Built

variable {reply : TrackerReply} {request : TrackerRequest} {peer : TrackerPeer}
  {inet_addr : Datum → UInt32} {sha1 : Datum → BtId}

/-- No string is longer than an `int` has it. -/
structure StringsFit (reply : TrackerReply) (request : TrackerRequest) : Prop where
  failure_reason : reply.failure_reason.length < 2 ^ 31
  peers : request.compact = true → 6 * reply.peer_arr.length < 2 ^ 31

theorem length_decimal_le (n : ℕ) : (Bencode.decimal n).length ≤ n + 1 := by
  suffices h : ∀ fuel n, (Bencode.decimalAux fuel n).length ≤ fuel from h _ n
  intro fuel
  induction fuel with
  | zero => exact fun n => Nat.le_refl 0
  | succ fuel ih =>
    intro n
    rw [Bencode.decimalAux]
    split_ifs
    · exact Nat.succ_le_succ (Nat.zero_le fuel)
    · rw [List.length_append]
      exact Nat.succ_le_succ (ih _)

theorem length_inetNtoa (v4_addr : UInt32) : (inetNtoa v4_addr).length < 2 ^ 31 := by
  have hlt := v4_addr.toNat_lt
  have ha := length_decimal_le (v4_addr.toNat / 2 ^ 24)
  have hb := length_decimal_le (v4_addr.toNat / 2 ^ 16 % 256)
  have hc := length_decimal_le (v4_addr.toNat / 2 ^ 8 % 256)
  have hd := length_decimal_le (v4_addr.toNat % 256)
  simp only [inetNtoa, List.length_append, List.length_cons]
  omega

theorem length_ipToString (ipaddr : Option UInt32) : (ipToString ipaddr).length < 2 ^ 31 := by
  cases ipaddr with
  | none =>
    show 4 < 2 ^ 31
    omega
  | some v4_addr => exact length_inetNtoa v4_addr

theorem length_flatMap_peerBytes (peer_arr : List TrackerPeer) :
    (peer_arr.flatMap peerBytes).length = 6 * peer_arr.length := by
  induction peer_arr with
  | nil => rfl
  | cons peer peer_arr ih =>
    have hpeer : (peerBytes peer).length = 6 := rfl
    rw [List.flatMap_cons, List.length_append, hpeer, ih, List.length_cons]
    omega

/-- The fields of a peer, by increasing key. -/
theorem peerDvar_eq (request : TrackerRequest) (peer : TrackerPeer) : peerDvar request peer =
    .map ((keyIp, .string (ipToString peer.ipport.ipaddr)) ::
      ((if request.nopeerid then [] else [(keyPeerId, .string peer.peerid.1)]) ++
        [(keyPort, .integer peer.ipport.port.toNat)])) := by
  unfold peerDvar
  cases request.nopeerid
  · rfl
  · rfl

theorem peerDvar_ok (request : TrackerRequest) (peer : TrackerPeer) :
    (peerDvar request peer).Ok := by
  have hip := length_ipToString peer.ipport.ipaddr
  have hid : peer.peerid.1.length < 2 ^ 31 := by
    rw [peer.peerid.2]
    omega
  have hport := peer.ipport.port.toNat_lt
  have hrange : -2 ^ 63 ≤ (peer.ipport.port.toNat : ℤ) ∧ (peer.ipport.port.toNat : ℤ) < 2 ^ 63 := by
    omega
  rw [peerDvar_eq]
  cases request.nopeerid <;>
    simp only [Dvar.Ok, Dvar.OkMap, List.cons_append, List.nil_append, List.map_cons, List.map_nil,
      if_true, Bool.false_eq_true, if_false, hip, hid, hrange] <;> decide

theorem okArr_map (request : TrackerRequest) (peer_arr : List TrackerPeer) :
    Dvar.OkArr (peer_arr.map (peerDvar request)) := by
  induction peer_arr with
  | nil => exact trivial
  | cons peer peer_arr ih => exact ⟨peerDvar_ok request peer, ih⟩

theorem peerArrToDvar_ok (hfit : reply.StringsFit request) :
    (peerArrToDvar reply.peer_arr request).Ok := by
  unfold peerArrToDvar
  split_ifs with hcompact
  · show (reply.peer_arr.flatMap peerBytes).length < 2 ^ 31
    rw [length_flatMap_peerBytes]
    exact hfit.peers hcompact
  · exact okArr_map request reply.peer_arr

theorem replyDvar_failure (h : reply.failure_reason ≠ []) : reply.replyDvar request =
    .map [(keyFailureReason, .string reply.failure_reason)] := by
  rw [replyDvar, if_pos h]
  rfl

/-- The fields of a reply, by increasing key. -/
theorem replyDvar_peers (h : reply.failure_reason = []) : reply.replyDvar request =
    .map [(keyComplete, Metainfo.intDvar reply.nb_seeder),
      (keyIncomplete, Metainfo.intDvar reply.nb_leecher),
      (keyInterval, .integer (toSec32bit reply.request_period).toNat),
      (keyPeers, peerArrToDvar reply.peer_arr request)] := by
  rw [replyDvar, if_neg (not_not.2 h)]
  rfl

theorem replyDvar_ok (hfit : reply.StringsFit request) : (reply.replyDvar request).Ok := by
  by_cases h : reply.failure_reason = []
  · have hsec := (toSec32bit reply.request_period).toNat_lt
    have hrange : -2 ^ 63 ≤ ((toSec32bit reply.request_period).toNat : ℤ)
        ∧ ((toSec32bit reply.request_period).toNat : ℤ) < 2 ^ 63 := by omega
    rw [replyDvar_peers h]
    simp only [Dvar.Ok, Dvar.OkMap, List.map_cons, List.map_nil, Metainfo.intDvar_ok, hrange,
      peerArrToDvar_ok hfit]
    decide
  · rw [replyDvar_failure h]
    simp only [Dvar.Ok, Dvar.OkMap, List.map_cons, List.map_nil, hfit.failure_reason]
    decide

theorem fromBencode_eq (hfit : reply.StringsFit request) :
    fromBencode inet_addr sha1 (reply.toBencode request)
      = ofDvar inet_addr sha1 (reply.replyDvar request) := by
  rw [fromBencode, toBencode, Bencode.toDvar_fromDvar (replyDvar_ok hfit)]

end Built

end TrackerReply

end Neoip
