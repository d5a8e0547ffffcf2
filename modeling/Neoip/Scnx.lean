/-
Neoip/Scnx.lean

The established secure connection: `scnx_full_t`, with its contexts
`scnx_full_xmit_t` and `scnx_full_recv_t` and its rekeying `scnx_full_rkey_t`.

A packet is its sequence number, what the cipher makes of it under this number,
and the MAC of both.  Each direction has a key.  To rekey, the sender sends a
request with a new nonce; the receiver derives its receive key and keeps the old
context as the alternate one, and replies; on the reply the sender derives its
xmit key.

The keys are symbolic: a key is the derivations which made it.  What the ciphers
and the MACs do with a key is a `Crypto`.  The expiry dates of the timer are not
in the model, only whether it is running.

The last three fields of `ScnxFull` are no fields of the source: they record what
has been drawn, enciphered and accepted so far.
-/
import Neoip.Run
import Neoip.Slidwin
import Neoip.Wire

namespace Neoip

/-! ### Keys -/

/-- A key, by how it was derived. -/
inductive Skey
  | master
  /-- `skey_pkcs5_derivkey` with the algorithm `sha1/nokey/20`. -/
  | derivkey (base_key : Skey) (base_salt : String)
  deriving DecidableEq, Repr

namespace Skey

/-- How many derivations made the key. -/
def depth : Skey → ℕ
  | master => 0
  | derivkey base_key _ => base_key.depth + 1

/-- The key after a rekeying. -/
def rkey (key : Skey) : Skey := derivkey key "scnxrkey"

@[simp] theorem depth_rkey (key : Skey) : key.rkey.depth = key.depth + 1 := rfl

theorem rkey_inj {key key' : Skey} (h : key.rkey = key'.rkey) : key = key' := by
  injection h

theorem rkey_ne (key : Skey) : key.rkey ≠ key := by
  intro h
  have hdepth := congrArg depth h
  rw [depth_rkey] at hdepth
  omega

end Skey

/-- `skey_ciph_t` and `skey_auth_t`.  The initialisation vector is the sequence number. -/
structure Crypto where
  output_len : ℕ
  auth : Skey → Datum → Datum
  encipher : Skey → BitVec 32 → Datum → Datum
  decipher : Skey → BitVec 32 → Datum → Datum
  length_auth : ∀ key data, (auth key data).length = output_len
  decipher_encipher : ∀ key iv data, decipher key iv (encipher key iv data) = data

/-- A cipher and a MAC to evaluate runs with: the cipher adds a number which the key and the
initialisation vector give, the MAC is the sum of the key's number and the bytes. -/
def sampleCrypto : Crypto where
  output_len := 1
  auth key data := [data.foldl (· + ·) (code key)]
  encipher key iv data := data.map (· + (code key + UInt8.ofNat iv.toNat))
  decipher key iv data := data.map (· - (code key + UInt8.ofNat iv.toNat))
  length_auth _ _ := rfl
  decipher_encipher key iv data := by
    rw [List.map_map]
    exact List.map_id'' (fun b => by simp) data
where
  code : Skey → UInt8
    | .master => 0
    | .derivkey base_key base_salt => 5 * code base_key +
        if base_salt = "itor2resp" then 1
        else if base_salt = "resp2itor" then 2
        else if base_salt = "scnxauth" then 3
        else if base_salt = "scnxciph" then 4
        else 5

/-! ### Packets -/

/-- `scnx_nonceid_t`: a `gen_id_t` on 8 bytes. -/
structure Nonceid where
  buffer : Datum
  length_eq : buffer.length = 8
  deriving DecidableEq

namespace Nonceid

/-- What the constructor makes. -/
def null : Nonceid := ⟨[0, 0, 0, 0, 0, 0, 0, 0], rfl⟩

def isNull (nonce : Nonceid) : Bool := nonce = null

/-- Unserialize a nonce. -/
def read (pkt : Datum) : Option (Nonceid × Datum) :=
  if h : 8 ≤ pkt.length then some (⟨pkt.take 8, by simp [h]⟩, pkt.drop 8) else none

theorem read_append (nonce : Nonceid) (rest : Datum) :
    read (nonce.buffer ++ rest) = some (nonce, rest) := by
  have hlen := nonce.length_eq
  have h : 8 ≤ (nonce.buffer ++ rest).length := by
    rw [List.length_append]
    omega
  rw [read, dif_pos h]
  congr 2
  · apply (Nonceid.mk.injEq ..).mpr
    rw [← hlen, List.take_left']
    rfl
  · rw [← hlen, List.drop_left']
    rfl

theorem eq_of_read {pkt rest : Datum} {nonce : Nonceid} (h : read pkt = some (nonce, rest)) :
    pkt = nonce.buffer ++ rest := by
  rw [read] at h
  split_ifs at h with hlen
  rw [Option.some.injEq, Prod.mk.injEq] at h
  rw [← h.1, ← h.2, List.take_append_drop]

end Nonceid

/-- `scnx_pkttype_t`: the types of the secure connections are those from 80 on, and 80 is
`NONE`. -/
def REKEY_REQUEST : UInt8 := 86

def REKEY_REPLY : UInt8 := 87

/-- What is enciphered. -/
inductive ScnxPlain
  | data (pkt : Datum)
  | rekeyRequest (nonce : Nonceid)
  | rekeyReply (nonce : Nonceid)
  deriving DecidableEq

/-- `build_rekey_request` and `build_rekey_reply`, and the packet itself for data. -/
def ScnxPlain.toDatum : ScnxPlain → Datum
  | data pkt => pkt
  | rekeyRequest nonce => REKEY_REQUEST :: nonce.buffer
  | rekeyReply nonce => REKEY_REPLY :: nonce.buffer

/-- `scnx_err_t`, the values which are returned here.  `BAD_FULL_CIPH` is not one of them: it
stands for a length below 0 of type `size_t`. -/
inductive ScnxErr
  | OK
  | BOGUS_PKT (reason : String)
  | BAD_FULL_AUTH
  | REPLAYED_PKT
  deriving DecidableEq, Repr

/-! ### Contexts -/

/-- The keys which a context derives from its base key. -/
def authKey (base_key : Skey) : Skey := .derivkey base_key "scnxauth"

def ciphKey (base_key : Skey) : Skey := .derivkey base_key "scnxciph"

/-- The packet with the sequence number and the ciphertext, under a base key. -/
def Crypto.secured (C : Crypto) (base_key : Skey) (seqnb : BitVec 32) (ciphertxt : Datum) : Datum :=
  let body := writeUint32 seqnb.toNat ++ ciphertxt
  body ++ C.auth (authKey base_key) body

/-- `scnx_full_xmit_t`. -/
structure ScnxXmit where
  base_key : Skey
  seqnb : BitVec 32
  deriving DecidableEq

namespace ScnxXmit

def ctor (base_key : Skey) : ScnxXmit := ⟨base_key, 0⟩

/-- It returns no error. -/
def pktFromUpper (C : Crypto) (pkt : Datum) (x : ScnxXmit) : Datum × ScnxXmit :=
  (C.secured x.base_key x.seqnb (C.encipher (ciphKey x.base_key) x.seqnb pkt),
    { x with seqnb := x.seqnb + 1 })

end ScnxXmit

/-- `scnx_full_recv_t`. -/
structure ScnxRecv where
  base_key : Skey
  areplay_window : Slidwin Bool
  deriving DecidableEq

namespace ScnxRecv

def AREPLAY_WIN_SIZE_DFL : ℕ := 32

def ctor (base_key : Skey) : ScnxRecv := ⟨base_key, Slidwin.ctor AREPLAY_WIN_SIZE_DFL false 0⟩

/-- The packet has a MAC, and it is the one of what is before it. -/
def Authenticates (C : Crypto) (r : ScnxRecv) (pkt : Datum) : Prop :=
  pkt.drop (pkt.length - C.output_len) =
    C.auth (authKey r.base_key) (pkt.take (pkt.length - C.output_len))

instance (C : Crypto) (r : ScnxRecv) (pkt : Datum) : Decidable (r.Authenticates C pkt) :=
  inferInstanceAs (Decidable (_ = _))

/-- The anti-replay: the number is below the window, or in it and already received. -/
def isReplayed (r : ScnxRecv) (seqnb : BitVec 32) : Bool :=
  seqnb < r.areplay_window.getIndexFirst || r.areplay_window.getDefault seqnb false

/-- The error, what is left of the packet, and the number which is accepted.  On a packet which is
shorter than the MAC the `tail_peek` of the source fails an assertion, or reads in front of the
packet: such a packet is refused here, so that the runs go on after it. -/
def pktFromLower (C : Crypto) (pkt : Datum) (r : ScnxRecv) :
    ScnxErr × Datum × Option (BitVec 32) × ScnxRecv :=
  if pkt.length < C.output_len then
    (.BOGUS_PKT "Cant read the FULL_AUTH due to ByteArray Data too short.", pkt, none, r)
  else if ¬r.Authenticates C pkt then (.BAD_FULL_AUTH, pkt, none, r)
  else
    let body := pkt.take (pkt.length - C.output_len)
    match readUint32 body with
    | none =>
      (.BOGUS_PKT "Cant read the sequence number due to uint32_t Payload Too Short", body, none, r)
    | some (n, ciphertxt) =>
      let seqnb := BitVec.ofNat 32 n
      if r.isReplayed seqnb then (.REPLAYED_PKT, ciphertxt, none, r)
      else (.OK, C.decipher (ciphKey r.base_key) seqnb ciphertxt, some seqnb,
        { r with areplay_window := r.areplay_window.set seqnb true })

end ScnxRecv

/-! ### The connection -/

/-- A packet which has been enciphered: the key, the number and the plaintext. -/
structure Enciphered where
  key : Skey
  seqnb : BitVec 32
  plain : ScnxPlain
  deriving DecidableEq

/-- The packet which it went out as. -/
def Enciphered.pkt (C : Crypto) (e : Enciphered) : Datum :=
  C.secured e.key e.seqnb (C.encipher (ciphKey e.key) e.seqnb e.plain.toDatum)

/-- `scnx_full_t`. -/
structure ScnxFull where
  reliable_outter_cnx : Bool
  xmit_key : Skey
  recv_key : Skey
  full_xmit : ScnxXmit
  full_recv : ScnxRecv
  /-- The alternate receive context. -/
  full_arcv : Option ScnxRecv
  /-- Null when no rekeying is in progress. -/
  local_nonce : Nonceid
  last_remote_nonce : Nonceid
  /-- The timer of the request is running. -/
  rxmit_timeout : Bool
  estapkt_in : Datum
  estapkt_out : Datum
  pkt_to_lower_list : List Datum
  /-- The nonces which this side has held, the null one first. -/
  nonces : List Nonceid
  enciphered : List Enciphered
  /-- The key and the number of each packet which a receive context has accepted. -/
  accepted : List (Skey × BitVec 32)
  deriving DecidableEq

namespace ScnxFull

def SEQNB_ITOR_REKEY : BitVec 32 := 0x7FFFFFFF

def SEQNB_SIG_RESERVED : BitVec 32 := 0xFFFFFF00

/-- The key of the packets which the initiator sends, or which the responder sends. -/
def directionKey (from_itor : Bool) : Skey :=
  .derivkey .master (if from_itor then "itor2resp" else "resp2itor")

/-- The constructor and `start`. -/
def start (is_itor_f reliable_outter_cnx : Bool) (estapkt_in estapkt_out : Datum) : ScnxFull where
  reliable_outter_cnx := reliable_outter_cnx
  xmit_key := directionKey is_itor_f
  recv_key := directionKey !is_itor_f
  full_xmit := ScnxXmit.ctor (directionKey is_itor_f)
  full_recv := ScnxRecv.ctor (directionKey !is_itor_f)
  full_arcv := none
  local_nonce := Nonceid.null
  last_remote_nonce := Nonceid.null
  rxmit_timeout := false
  estapkt_in := estapkt_in
  estapkt_out := estapkt_out
  pkt_to_lower_list := []
  nonces := [Nonceid.null]
  enciphered := []
  accepted := []

def isInprogress (s : ScnxFull) : Bool := !s.local_nonce.isNull

/-- `full_xmit->pkt_from_upper`, recorded. -/
def secure (C : Crypto) (plain : ScnxPlain) (s : ScnxFull) : Datum × ScnxFull :=
  let r := s.full_xmit.pktFromUpper C plain.toDatum
  (r.1, { s with
    full_xmit := r.2
    enciphered := s.enciphered ++ [⟨s.full_xmit.base_key, s.full_xmit.seqnb, plain⟩] })

def pktToLowerAsyncNotify (pkt : Datum) (s : ScnxFull) : ScnxFull :=
  { s with pkt_to_lower_list := s.pkt_to_lower_list ++ [pkt] }

/-- `scnx_full_rkey_t::initiate`, with the nonce which is drawn. -/
def initiate (nonce : Nonceid) (s : ScnxFull) : ScnxFull :=
  { s with local_nonce := nonce, rxmit_timeout := true, nonces := s.nonces ++ [nonce] }

/-- The packet is secured, or is null because it is dropped.  `nonce` is what is drawn when a
rekeying is initiated. -/
def pktFromUpper (C : Crypto) (nonce : Nonceid) (pkt : Datum) (s : ScnxFull) : Datum × ScnxFull :=
  if SEQNB_SIG_RESERVED ≤ s.full_xmit.seqnb ∧ !s.reliable_outter_cnx then ([], s)
  else if SEQNB_ITOR_REKEY ≤ s.full_xmit.seqnb ∧ !s.isInprogress then
    (s.initiate nonce).secure C (.data pkt)
  else s.secure C (.data pkt)

/-- `scnx_full_rkey_t::neoip_timeout_expire_cb`. -/
def timeoutExpire (C : Crypto) (s : ScnxFull) : Datum × ScnxFull :=
  let r := s.secure C (.rekeyRequest s.local_nonce)
  (r.1, { r.2 with rxmit_timeout := !r.2.reliable_outter_cnx })

/-- The receive key is derived, and the context becomes the alternate one. -/
def deriveRecv (remote_nonce : Nonceid) (s : ScnxFull) : ScnxFull :=
  { s with
    last_remote_nonce := remote_nonce
    full_arcv := some s.full_recv
    recv_key := s.recv_key.rkey
    full_recv := ScnxRecv.ctor s.recv_key.rkey }

/-- The reply is built, secured and queued. -/
def queueReply (C : Crypto) (remote_nonce : Nonceid) (s : ScnxFull) : ScnxFull :=
  let r := s.secure C (.rekeyReply remote_nonce)
  r.2.pktToLowerAsyncNotify r.1

/-- The packet is a request: its type has been read. -/
def recvRekeyRequest (C : Crypto) (pkt : Datum) (s : ScnxFull) : ScnxErr × Datum × ScnxFull :=
  match Nonceid.read pkt with
  | none => (.BOGUS_PKT "Cant read the rekey_request nonce due to gen_id_t Payload Too Short", pkt, s)
  | some (remote_nonce, _) =>
    let s := s.queueReply C remote_nonce
    -- the request has been retransmitted when it is the last one again
    if s.last_remote_nonce = remote_nonce then (.OK, [], s)
    else (.OK, [], s.deriveRecv remote_nonce)

/-- The xmit key is derived, and the rekeying is completed. -/
def deriveXmit (s : ScnxFull) : ScnxFull :=
  { s with
    xmit_key := s.xmit_key.rkey
    full_xmit := ScnxXmit.ctor s.xmit_key.rkey
    local_nonce := Nonceid.null
    rxmit_timeout := false }

/-- The packet is a reply, with its type still in front. -/
def recvRekeyReply (pkt : Datum) (s : ScnxFull) : ScnxErr × Datum × ScnxFull :=
  if !s.isInprogress then (.OK, pkt, s)
  else match Nonceid.read pkt.tail with
  | none =>
    (.BOGUS_PKT "Cant read the rekey_reply nonce due to gen_id_t Payload Too Short", pkt.tail, s)
  | some (nonce_in, rest) =>
    if nonce_in ≠ s.local_nonce then (.OK, rest, s)
    else (.OK, rest, s.deriveXmit)

/-- The packet goes through the main receive context, or else through the alternate one. -/
def recvSecured (C : Crypto) (pkt : Datum) (s : ScnxFull) : ScnxErr × Datum × ScnxFull :=
  match s.full_recv.pktFromLower C pkt, s.full_arcv with
  | (.OK, pkt, seqnb, r), _ =>
    -- accepted with the main key: the alternate context is deleted
    (.OK, pkt, { s with
      full_recv := r
      full_arcv := none
      accepted := s.accepted ++ (seqnb.map (r.base_key, ·)).toList })
  | (.BAD_FULL_AUTH, pkt, _, _), some arcv =>
    match arcv.pktFromLower C pkt with
    | (err, pkt, seqnb, r) => (err, pkt, { s with
        full_arcv := some r
        accepted := s.accepted ++ (seqnb.map (r.base_key, ·)).toList })
  | (err, pkt, _, _), _ => (err, pkt, s)

/-- The packet has been authenticated. -/
def dispatch (C : Crypto) (pkt : Datum) (s : ScnxFull) : ScnxErr × Datum × ScnxFull :=
  match pkt with
  | [] => (.BOGUS_PKT "Cant read the packet type due to uint8_t Payload Too Short", [], s)
  | pkttype :: rest =>
    if pkttype = REKEY_REQUEST then s.recvRekeyRequest C rest
    else if pkttype = REKEY_REPLY then s.recvRekeyReply (pkttype :: rest)
    else (.OK, pkttype :: rest, s)

/-- An authenticated packet shows that the other side has received `estapkt_out`. -/
def nullifyEstapkt (s : ScnxFull) : ScnxFull :=
  if s.estapkt_in ≠ [] then { s with estapkt_in := [], estapkt_out := [] } else s

def pktFromLower (C : Crypto) (pkt : Datum) (s : ScnxFull) : ScnxErr × Datum × ScnxFull :=
  match s.recvSecured C pkt with
  | (.OK, pkt, s) => s.nullifyEstapkt.dispatch C pkt
  | (err, pkt, s) =>
    if s.estapkt_in ≠ [] ∧ s.estapkt_in = pkt then
      (.OK, [], s.pktToLowerAsyncNotify s.estapkt_out)
    else (err, pkt, s)

/-- `neoip_zerotimer_expire_cb`: the packets which have been queued go to the lower layer. -/
def zerotimerExpire (s : ScnxFull) : List Datum × ScnxFull :=
  (s.pkt_to_lower_list, { s with pkt_to_lower_list := [] })

end ScnxFull

/-! ### Runs -/

/-- The packets and the timers. -/
inductive ScnxEvent
  | pktFromUpper (nonce : Nonceid) (pkt : Datum)
  | pktFromLower (pkt : Datum)
  | rxmitTimeout
  | zerotimer
  deriving DecidableEq

/-- What a call returns, and the packets it gives to the layers below and above. -/
structure ScnxOut where
  err : ScnxErr
  toLower : List Datum
  toUpper : List Datum
  deriving DecidableEq, Repr

namespace ScnxFull

/-- A packet which is null has been swallowed. -/
def handle (C : Crypto) (s : ScnxFull) : ScnxEvent → ScnxOut × ScnxFull
  | .pktFromUpper nonce pkt =>
    let r := s.pktFromUpper C nonce pkt
    (⟨.OK, if r.1 = [] then [] else [r.1], []⟩, r.2)
  | .pktFromLower pkt =>
    let r := s.pktFromLower C pkt
    (⟨r.1, [], if r.1 = .OK ∧ r.2.1 ≠ [] then [r.2.1] else []⟩, r.2.2)
  | .rxmitTimeout =>
    if s.rxmit_timeout then
      let r := s.timeoutExpire C
      (⟨.OK, [r.1], []⟩, r.2)
    else (⟨.OK, [], []⟩, s)
  | .zerotimer =>
    let r := s.zerotimerExpire
    (⟨.OK, r.1, []⟩, r.2)

def step (C : Crypto) (s : ScnxFull) (e : ScnxEvent) : ScnxFull := (s.handle C e).2

end ScnxFull

/-! ### What a receive context accepts -/

namespace ScnxRecv

variable {C : Crypto} {r : ScnxRecv} {pkt : Datum}

theorem length_secured (C : Crypto) (base_key : Skey) (seqnb : BitVec 32) (ciphertxt : Datum) :
    (C.secured base_key seqnb ciphertxt).length = 4 + ciphertxt.length + C.output_len := by
  simp [Crypto.secured, C.length_auth, writeUint32]
  omega

theorem secured_inj {base_key : Skey} {seqnb seqnb' : BitVec 32} {ciphertxt ciphertxt' : Datum}
    (h : C.secured base_key seqnb ciphertxt = C.secured base_key seqnb' ciphertxt') :
    seqnb = seqnb' ∧ ciphertxt = ciphertxt' := by
  have hmac : (C.auth (authKey base_key) (writeUint32 seqnb.toNat ++ ciphertxt)).length =
      (C.auth (authKey base_key) (writeUint32 seqnb'.toNat ++ ciphertxt')).length := by
    rw [C.length_auth, C.length_auth]
  have hbody := (List.append_inj' h hmac).1
  obtain ⟨hnumber, hct⟩ := List.append_inj hbody rfl
  have hread := readUint32_writeUint32 seqnb.isLt []
  rw [hnumber, readUint32_writeUint32 seqnb'.isLt, Option.some.injEq, Prod.mk.injEq] at hread
  exact ⟨BitVec.eq_of_toNat_eq hread.1.symm, hct⟩

/-- The number is marked as accepted. -/
def mark (seqnb : BitVec 32) (r : ScnxRecv) : ScnxRecv :=
  { r with areplay_window := r.areplay_window.set seqnb true }

@[simp] theorem base_key_mark (seqnb : BitVec 32) (r : ScnxRecv) :
    (r.mark seqnb).base_key = r.base_key := rfl

theorem body_secured (C : Crypto) (base_key : Skey) (seqnb : BitVec 32) (ciphertxt : Datum) :
    (C.secured base_key seqnb ciphertxt).length - C.output_len =
      (writeUint32 seqnb.toNat ++ ciphertxt).length := by
  rw [length_secured, List.length_append, Nat.add_sub_cancel]
  rfl

theorem authenticates_secured (C : Crypto) (r : ScnxRecv) (seqnb : BitVec 32)
    (ciphertxt : Datum) : r.Authenticates C (C.secured r.base_key seqnb ciphertxt) := by
  rw [Authenticates, body_secured, Crypto.secured, List.drop_left, List.take_left]

/-- A packet under the key of the context is received unless it is replayed. -/
theorem pktFromLower_secured (C : Crypto) (r : ScnxRecv) (seqnb : BitVec 32) (ciphertxt : Datum) :
    r.pktFromLower C (C.secured r.base_key seqnb ciphertxt) =
      if r.isReplayed seqnb then (.REPLAYED_PKT, ciphertxt, none, r)
      else (.OK, C.decipher (ciphKey r.base_key) seqnb ciphertxt, some seqnb, r.mark seqnb) := by
  have hlen := length_secured C r.base_key seqnb ciphertxt
  have hauth := authenticates_secured C r seqnb ciphertxt
  rw [pktFromLower, if_neg (by omega), if_neg (not_not.2 hauth), body_secured]
  simp only [Crypto.secured, List.take_left, readUint32_writeUint32 seqnb.isLt,
    BitVec.ofNat_toNat, BitVec.setWidth_eq, mark]

/-- **What a context accepts**: a packet under its key, with a number which is not replayed.  With
any other packet it returns an error and is left as it is, and the packet too when the context
does not authenticate it. -/
theorem pktFromLower_cases (C : Crypto) (r : ScnxRecv) (pkt : Datum) :
    (∃ err pkt', r.pktFromLower C pkt = (err, pkt', none, r) ∧ err ≠ .OK ∧
        (err = .BAD_FULL_AUTH → pkt' = pkt ∧ ¬r.Authenticates C pkt)) ∨
      ∃ seqnb ciphertxt, pkt = C.secured r.base_key seqnb ciphertxt ∧
        r.isReplayed seqnb = false := by
  by_cases hlen : pkt.length < C.output_len
  · left
    rw [pktFromLower, if_pos hlen]
    exact ⟨_, _, rfl, by simp, by simp⟩
  by_cases hauth : r.Authenticates C pkt
  · rcases hread : readUint32 (pkt.take (pkt.length - C.output_len)) with - | ⟨n, ciphertxt⟩
    · left
      rw [pktFromLower, if_neg hlen, if_neg (not_not.2 hauth)]
      simp only [hread]
      exact ⟨_, _, rfl, by simp, by simp⟩
    · obtain ⟨hn, hbody⟩ := eq_of_readUint32 hread
      have hpkt : pkt = C.secured r.base_key (BitVec.ofNat 32 n) ciphertxt := by
        have htoNat : (BitVec.ofNat 32 n).toNat = n := Nat.mod_eq_of_lt hn
        have hsplit := List.take_append_drop (pkt.length - C.output_len) pkt
        rw [hauth, hbody] at hsplit
        rw [Crypto.secured, htoNat]
        exact hsplit.symm
      cases hrep : r.isReplayed (BitVec.ofNat 32 n) with
      | false => exact .inr ⟨_, _, hpkt, hrep⟩
      | true =>
        left
        rw [hpkt, pktFromLower_secured, if_pos hrep]
        exact ⟨_, _, rfl, by simp, by simp⟩
  · left
    rw [pktFromLower, if_neg hlen, if_pos hauth]
    exact ⟨_, _, rfl, by simp, fun _ => ⟨rfl, hauth⟩⟩

end ScnxRecv

namespace ScnxFull

variable {C : Crypto} {s : ScnxFull} {pkt : Datum}

/-- The main receive context has accepted the number. -/
def acceptRecv (seqnb : BitVec 32) (s : ScnxFull) : ScnxFull :=
  { s with
    full_recv := s.full_recv.mark seqnb
    full_arcv := none
    accepted := s.accepted ++ [(s.full_recv.base_key, seqnb)] }

/-- The alternate receive context has accepted the number. -/
def acceptArcv (arcv : ScnxRecv) (seqnb : BitVec 32) (s : ScnxFull) : ScnxFull :=
  { s with
    full_arcv := some (arcv.mark seqnb)
    accepted := s.accepted ++ [(arcv.base_key, seqnb)] }

/-- The two receive contexts. -/
def IsRecv (s : ScnxFull) (r : ScnxRecv) : Prop := r = s.full_recv ∨ s.full_arcv = some r

theorem recvSecured_main (C : Crypto) (s : ScnxFull) {seqnb : BitVec 32}
    (hrep : s.full_recv.isReplayed seqnb = false) (ciphertxt : Datum) :
    s.recvSecured C (C.secured s.full_recv.base_key seqnb ciphertxt) =
      (.OK, C.decipher (ciphKey s.full_recv.base_key) seqnb ciphertxt, s.acceptRecv seqnb) := by
  simp only [recvSecured, ScnxRecv.pktFromLower_secured, hrep, Bool.false_eq_true, if_false]
  rfl

theorem recvSecured_arcv (C : Crypto) {arcv : ScnxRecv} {seqnb : BitVec 32} {ciphertxt : Datum}
    (hrecv : ¬s.full_recv.Authenticates C (C.secured arcv.base_key seqnb ciphertxt))
    (harcv : s.full_arcv = some arcv) (hrep : arcv.isReplayed seqnb = false) :
    s.recvSecured C (C.secured arcv.base_key seqnb ciphertxt) =
      (.OK, C.decipher (ciphKey arcv.base_key) seqnb ciphertxt, s.acceptArcv arcv seqnb) := by
  have hlen : ¬(C.secured arcv.base_key seqnb ciphertxt).length < C.output_len := by
    rw [ScnxRecv.length_secured]
    omega
  have hmain : s.full_recv.pktFromLower C (C.secured arcv.base_key seqnb ciphertxt) =
      (.BAD_FULL_AUTH, C.secured arcv.base_key seqnb ciphertxt, none, s.full_recv) := by
    rw [ScnxRecv.pktFromLower, if_neg hlen, if_pos hrecv]
  simp only [recvSecured, hmain, harcv, ScnxRecv.pktFromLower_secured, hrep, Bool.false_eq_true,
    if_false]
  rfl

/-- **What a connection accepts**: a packet which one of the two contexts accepts, the alternate
one only when the main one does not authenticate it. -/
theorem recvSecured_cases (C : Crypto) (s : ScnxFull) (pkt : Datum) :
    (∃ err pkt', s.recvSecured C pkt = (err, pkt', s) ∧ err ≠ .OK) ∨
      ∃ r seqnb ciphertxt, s.IsRecv r ∧ r.isReplayed seqnb = false ∧
        pkt = C.secured r.base_key seqnb ciphertxt ∧
        ((r = s.full_recv ∧ s.recvSecured C pkt =
            (.OK, C.decipher (ciphKey r.base_key) seqnb ciphertxt, s.acceptRecv seqnb)) ∨
          (s.full_arcv = some r ∧ ¬s.full_recv.Authenticates C pkt ∧ s.recvSecured C pkt =
            (.OK, C.decipher (ciphKey r.base_key) seqnb ciphertxt, s.acceptArcv r seqnb))) := by
  rcases s.full_recv.pktFromLower_cases C pkt with
    ⟨err, pkt', heq, herr, hbad⟩ | ⟨seqnb, ct, hpkt, hrep⟩
  · by_cases hauth : err = .BAD_FULL_AUTH
    · obtain ⟨rfl, hrecv⟩ := hbad hauth
      cases harcv : s.full_arcv with
      | none =>
        left
        refine ⟨err, pkt', ?_, herr⟩
        simp only [recvSecured, heq, hauth, harcv]
      | some arcv =>
        rcases arcv.pktFromLower_cases C pkt' with
          ⟨err', pkt'', heq', herr', -⟩ | ⟨seqnb, ct, hpkt, hrep⟩
        · left
          refine ⟨err', pkt'', ?_, herr'⟩
          simp only [recvSecured, heq, hauth, harcv, heq', Option.map_none, Option.toList_none,
            List.append_nil]
          rw [← harcv]
        · right
          refine ⟨arcv, seqnb, ct, .inr harcv, hrep, hpkt, .inr ⟨rfl, hrecv, ?_⟩⟩
          rw [hpkt] at hrecv ⊢
          exact recvSecured_arcv C hrecv harcv hrep
    · left
      refine ⟨err, pkt', ?_, herr⟩
      cases err with
      | OK => exact absurd rfl herr
      | BAD_FULL_AUTH => exact absurd rfl hauth
      | BOGUS_PKT reason => simp only [recvSecured, heq]
      | REPLAYED_PKT => simp only [recvSecured, heq]
  · right
    refine ⟨s.full_recv, seqnb, ct, .inl rfl, hrep, hpkt, .inl ⟨rfl, ?_⟩⟩
    rw [hpkt]
    exact recvSecured_main C s hrep ct

/-- **What an authenticated packet does**: nothing, but a request is replied to and may derive the
receive key, and the reply which is waited for derives the xmit key. -/
theorem dispatch_cases (C : Crypto) (s : ScnxFull) (pkt : Datum) :
    (s.dispatch C pkt).2.2 = s ∨
      (∃ nonce rest, pkt = REKEY_REQUEST :: (nonce.buffer ++ rest) ∧
        (s.dispatch C pkt).2.2 = if s.last_remote_nonce = nonce then s.queueReply C nonce
          else (s.queueReply C nonce).deriveRecv nonce) ∨
      ∃ rest, pkt = REKEY_REPLY :: (s.local_nonce.buffer ++ rest) ∧ s.isInprogress = true ∧
        (s.dispatch C pkt).2.2 = s.deriveXmit := by
  match pkt with
  | [] => exact .inl rfl
  | pkttype :: pkt =>
    simp only [dispatch]
    split_ifs with hrequest hreply
    · subst hrequest
      rcases hread : Nonceid.read pkt with - | ⟨nonce, rest⟩
      · left
        simp only [recvRekeyRequest, hread]
      · right
        left
        refine ⟨nonce, rest, by rw [Nonceid.eq_of_read hread], ?_⟩
        simp only [recvRekeyRequest, hread]
        have hlast : (s.queueReply C nonce).last_remote_nonce = s.last_remote_nonce := rfl
        rw [hlast]
        split_ifs <;> rfl
    · subst hreply
      cases hin : s.isInprogress with
      | false =>
        left
        simp [recvRekeyReply, hin]
      | true =>
        rcases hread : Nonceid.read pkt with - | ⟨nonce, rest⟩
        · left
          simp [recvRekeyReply, hin, hread]
        · by_cases hnonce : nonce = s.local_nonce
          · right
            right
            refine ⟨rest, by rw [Nonceid.eq_of_read hread, hnonce], rfl, ?_⟩
            simp [recvRekeyReply, hin, hread, hnonce]
          · left
            simp [recvRekeyReply, hin, hread, hnonce]
    · exact .inl rfl

/-- What a packet from the lower layer does to the connection, but for the packets of the
establishment. -/
theorem pktFromLower_cases (C : Crypto) (s : ScnxFull) (pkt : Datum) :
    (∃ err pkt', s.recvSecured C pkt = (err, pkt', s) ∧ err ≠ .OK ∧
      ((s.pktFromLower C pkt).2.2 = s ∨
        (s.pktFromLower C pkt).2.2 = s.pktToLowerAsyncNotify s.estapkt_out)) ∨
      ∃ pkt' s', s.recvSecured C pkt = (.OK, pkt', s') ∧
        s.pktFromLower C pkt = s'.nullifyEstapkt.dispatch C pkt' := by
  rcases hrecv : s.recvSecured C pkt with ⟨err, pkt', s'⟩
  by_cases herr : err = .OK
  · right
    subst herr
    refine ⟨pkt', s', rfl, ?_⟩
    simp only [pktFromLower, hrecv]
  · left
    have hs : s' = s := by
      rcases s.recvSecured_cases C pkt with
        ⟨err', pkt'', heq, -⟩ | ⟨r, seqnb, ct, -, -, -, ⟨-, heq⟩ | ⟨-, -, heq⟩⟩
      · rw [hrecv] at heq
        simp only [Prod.mk.injEq] at heq
        exact heq.2.2
      · rw [hrecv] at heq
        simp only [Prod.mk.injEq] at heq
        exact absurd heq.1 herr
      · rw [hrecv] at heq
        simp only [Prod.mk.injEq] at heq
        exact absurd heq.1 herr
    subst hs
    refine ⟨err, pkt', rfl, herr, ?_⟩
    cases err with
    | OK => exact absurd rfl herr
    | _ =>
      simp only [pktFromLower, hrecv]
      split_ifs
      · exact .inr rfl
      · exact .inl rfl

end ScnxFull

end Neoip
